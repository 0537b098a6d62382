import Illinix.Verified.Process.Execute
import Illinix.Verified.Vm.Copy

/-! # Frames of user memory

A frame of user memory is free, or an area of a process refers to it.  Frames leave the free
lists in `vmalloc`, `vmcopy` and `do_page_fault`, and each of them keeps the sum as long as it
grows an area that was empty and finds a frame.  Nothing gives the frames of a process back:
`process_free` does not call `free_vm`, so that the sum is kept only if the process that is freed
has none. -/

namespace Illinix.Verified.Vm

open Kernel Lib Verified.Process Function List
open Option (map_eq_some_iff bind_eq_some_iff)

/-- The frames that the areas refer to. -/
def areaFrames (areas : List Area) : List Nat := (areas.flatMap Area.pages).map fun p => addrToPte p.2

/-- The frames that the areas of the processes in `tasks` refer to. -/
def held (tasks : List Nat) (s : VmState) : List Nat := tasks.flatMap fun t => areaFrames (s.vms t).mapList

/-! ## Page tables -/

section

variable {s s' : Space}

theorem Space.mmap_frames {va pa flags : Nat} {r : Int} (done : s.mmap va pa flags = .ok (s', r)) :
    s'.frames = s.frames := by
  obtain ⟨p, -, same⟩ := bind_eq_ok.mp done
  cases same
  rfl

theorem Space.freemap_frames {va size : Nat} {r : Int} (done : s.freemap va size = .ok (s', r)) :
    s'.frames = s.frames := by
  obtain ⟨p, -, same⟩ := bind_eq_ok.mp done
  cases same
  rfl

theorem Space.memcpy_frames {dest src : Nat} (done : s.memcpy dest src = .ok s') : s'.frames = s.frames := by
  unfold Space.memcpy at done
  split at done
  · cases done
    rfl
  · cases done

theorem Space.store_frames {bytes : List UInt8} {addr : Nat} (done : Space.store bytes addr s = .ok s') :
    s'.frames = s.frames := by
  induction bytes generalizing addr s with
  | nil =>
    cases done
    rfl
  | cons b bytes ih =>
    simp only [Space.store] at done
    split at done
    · cases done
    · have rest := ih done
      exact rest

theorem foldlM_frames {f : Space → Area → Except VmFault Space}
    (keeps : ∀ s a s', f s a = .ok s' → s'.frames = s.frames) {areas : List Area}
    (done : areas.foldlM f s = .ok s') : s'.frames = s.frames := by
  induction areas generalizing s with
  | nil =>
    cases done
    rfl
  | cons a areas ih =>
    obtain ⟨s1, first, rest⟩ := bind_eq_ok.mp done
    exact (ih rest).trans (keeps s a s1 first)

theorem unmapArea_frames {a : Area} (done : unmapArea s a = .ok s') : s'.frames = s.frames := by
  obtain ⟨⟨s1, r⟩, freed, same⟩ := bind_eq_ok.mp done
  cases same
  exact Space.freemap_frames freed

theorem userMemMmap_frames {l : List (Nat × Nat)} (done : userMemMmap l s = .ok s') :
    s'.frames = s.frames := by
  induction l generalizing s with
  | nil =>
    cases done
    rfl
  | cons p l ih =>
    obtain ⟨⟨s1, r⟩, first, rest⟩ := bind_eq_ok.mp done
    exact (ih rest).trans (Space.mmap_frames first)

theorem createAreas_empty {areas : List Area} (empty : ∀ a ∈ areas, a.vmend = a.vmstart) :
    createAreas areas s = .ok (s, areas) := by
  induction areas with
  | nil => rfl
  | cons a areas ih =>
    rw [forall_mem_cons] at empty
    obtain ⟨mmap, vmstart, vmend, vmflag⟩ := a
    obtain ⟨none, empty⟩ := empty
    change vmend = vmstart at none
    subst none
    unfold createAreas vmalloc
    simp [ih empty]

end

/-- The memory of a process has not changed, unless it has now been mapped for the first time. -/
def SameVm (vm vm' : Vmem) : Prop := vm'.mapList = vm.mapList ∧ (vm'.size = 0 → vm.size = 0)

/-- `s'` is reached from `s` by mapping and unmapping processes. -/
structure Remapped (s s' : VmState) : Prop where
  init : s'.init = s.init
  frames : s'.frames = s.frames
  vms : ∀ t, SameVm (s.vms t) (s'.vms t)

/-- A process that has never been mapped has no pages. -/
def Clean (s : VmState) : Prop := ∀ t, (s.vms t).size = 0 → ∀ a ∈ (s.vms t).mapList, a.vmend = a.vmstart

section

@[simp] theorem setVm_self (s : VmState) (t : Nat) (vm : Vmem) : (s.setVm t vm).vms t = vm := update_self ..

theorem setVm_of_ne (s : VmState) {t u : Nat} (other : u ≠ t) (vm : Vmem) : (s.setVm t vm).vms u = s.vms u :=
  update_of_ne other ..

variable {s s' s'' : VmState}

theorem Remapped.refl (s : VmState) : Remapped s s := ⟨rfl, rfl, fun _ => ⟨rfl, id⟩⟩

theorem Remapped.trans (first : Remapped s s') (second : Remapped s' s'') : Remapped s s'' := by
  constructor
  · exact second.init.trans first.init
  · exact second.frames.trans first.frames
  · intro t
    exact ⟨(second.vms t).1.trans (first.vms t).1, fun zero => (first.vms t).2 ((second.vms t).2 zero)⟩

theorem Remapped.setVm {space : Space} {t : Nat} {vm : Vmem} (frames : space.frames = s.frames)
    (same : SameVm (s.vms t) vm) : Remapped s ({ s with toSpace := space }.setVm t vm) := by
  refine ⟨rfl, frames, fun u => ?_⟩
  by_cases mine : u = t
  · rw [mine, setVm_self]
    exact same
  · rw [setVm_of_ne _ mine]
    exact ⟨rfl, id⟩

theorem userMemUnmap_remapped {t : Nat} (done : userMemUnmap s t = .ok s') : Remapped s s' := by
  obtain ⟨space, folded, same⟩ := bind_eq_ok.mp done
  cases same
  exact ⟨rfl, foldlM_frames (fun _ _ _ => unmapArea_frames) folded, fun _ => ⟨rfl, id⟩⟩

theorem userMemMap_remapped {t : Nat} (clean : Clean s) (done : userMemMap s t = .ok s') :
    Remapped s s' ∧ (s'.vms t).size ≠ 0 := by
  unfold userMemMap at done
  split at done
  · next zero =>
    rw [createAreas_empty (clean t zero)] at done
    have same : s' = s.setVm t { s.vms t with size := 1 } := (Except.ok.inj done).symm
    rw [same]
    constructor
    · exact .setVm rfl ⟨rfl, fun one => absurd one Nat.one_ne_zero⟩
    · rw [setVm_self]
      exact Nat.one_ne_zero
  · next mapped =>
    obtain ⟨space, folded, same⟩ := bind_eq_ok.mp done
    cases same
    exact ⟨⟨rfl, foldlM_frames (fun _ _ _ => userMemMmap_frames) folded, fun _ => ⟨rfl, id⟩⟩, mapped⟩

theorem Remapped.clean (same : Remapped s s') (clean : Clean s) : Clean s' := by
  intro t zero
  rw [(same.vms t).1]
  exact clean t ((same.vms t).2 zero)

theorem umap_remapped {a b : Nat} (clean : Clean s) (done : umap s a b = .ok s') :
    Remapped s s' ∧ (b ≠ s.init → (s'.vms b).size ≠ 0) := by
  obtain ⟨s1, same, second⟩ : ∃ s1, Remapped s s1 ∧
      (if b ≠ s1.init then userMemMap s1 b else pure s1) = .ok s' := by
    simp only [umap] at done
    split at done
    · obtain ⟨s1, first, second⟩ := bind_eq_ok.mp done
      exact ⟨s1, userMemUnmap_remapped first, second⟩
    · exact ⟨s, .refl s, done⟩
  split at second
  · obtain ⟨same', mapped⟩ := userMemMap_remapped (same.clean clean) second
    exact ⟨same.trans same', fun _ => mapped⟩
  · next atInit =>
    cases second
    exact ⟨same, fun other => absurd other (same.init ▸ atInit)⟩

end

/-! ## Taking frames -/

section

variable {s s' : Space} {flags : Nat} {i : Nat} {r : Int} {vas : List Nat} {vm vm' : Area}

theorem Space.getUserPage_nil (none : s.frames = []) : s.getUserPage = (0, s) := by
  unfold Space.getUserPage
  rw [none]

theorem Space.getUserPage_cons {pa : Nat} {frames : List Nat} (some : s.frames = pa :: frames) :
    s.getUserPage = (pa, { s with frames }) := by
  unfold Space.getUserPage
  rw [some]

theorem vmallocFrom_area (done : vmallocFrom flags vas i s vm = .ok (s', vm', r)) :
    vm'.vmstart = vm.vmstart ∧ vm'.vmend = vm.vmend ∧ vm'.vmflag = vm.vmflag := by
  induction vas generalizing i s vm with
  | nil =>
    cases done
    exact ⟨rfl, rfl, rfl⟩
  | cons va vas ih =>
    simp only [vmallocFrom] at done
    split at done
    · cases done
      exact ⟨rfl, rfl, rfl⟩
    · obtain ⟨⟨s1, r1⟩, -, done⟩ := bind_eq_ok.mp done
      split at done
      · cases done
      · have kept := ih done
        exact kept

/-- One turn of the loop of `vmalloc`: there is no frame, or the page is mapped to the first one. -/
theorem vmallocFrom_cons {va : Nat} (frame : ∀ f ∈ s.frames, FrameOk f)
    (done : vmallocFrom flags (va :: vas) i s vm = .ok (s', vm', r)) :
    (s.frames = [] ∧ s' = s ∧ r = -1) ∨
    ∃ pa rest p n, s.frames = pa :: rest ∧ mmap s.toPaging va pa pageSize flags = .ok (p, n) ∧ n ≠ -1 ∧
      vmallocFrom flags vas (i + 1) { s with toPaging := p, frames := rest }
        { vm with mmap := update vm.mmap i (ptePresent ||| flags ||| addrToPte pa) } = .ok (s', vm', r) := by
  cases frames : s.frames with
  | nil =>
    simp only [vmallocFrom, Space.getUserPage_nil frames] at done
    cases done
    exact .inl ⟨rfl, rfl, rfl⟩
  | cons pa rest =>
    have some : pa ≠ 0 := (frame pa (frames ▸ mem_cons_self)).2
    simp only [vmallocFrom, Space.getUserPage_cons frames, if_neg some] at done
    obtain ⟨⟨s1, n⟩, mapped, done⟩ := bind_eq_ok.mp done
    obtain ⟨⟨p, n'⟩, entered, whole⟩ := bind_eq_ok.mp mapped
    cases whole
    split at done
    · cases done
    · next success => exact .inr ⟨pa, rest, p, n, rfl, entered, success, done⟩

theorem vmallocFrom_frames (low : flags < 2 ^ 12) (frame : ∀ f ∈ s.frames, FrameOk f)
    (enough : vas.length ≤ s.frames.length)
    (done : vmallocFrom flags vas i s vm = .ok (s', vm', r)) :
    s.frames = (range' i vas.length).map (fun j => addrToPte (vm'.mmap j)) ++ s'.frames ∧
    ∀ j < i, vm'.mmap j = vm.mmap j := by
  induction vas generalizing i s vm with
  | nil =>
    cases done
    exact ⟨rfl, fun _ _ => rfl⟩
  | cons va vas ih =>
    rcases vmallocFrom_cons frame done with ⟨none, -, -⟩ | ⟨pa, rest, p, n, frames, -, -, done⟩
    · rw [none] at enough
      cases enough
    · rw [frames] at enough
      rw [frames, forall_mem_cons] at frame
      obtain ⟨taken, before⟩ := @ih { s with toPaging := p, frames := rest } (i + 1) _ frame.2
        (Nat.le_of_succ_le_succ enough) done
      change ∀ j < i + 1, vm'.mmap j = update vm.mmap i _ j at before
      have first : addrToPte (vm'.mmap i) = pa := by
        rw [before i (Nat.lt_succ_self i), update_self, addrToPte_of_page frame.1.1]
        exact addrToPte_word low frame.1.1
      refine ⟨?_, fun j hj => ?_⟩
      · rw [length_cons, range'_succ, map_cons, first, cons_append, ← taken, frames]
      · rw [before j (Nat.lt_succ_of_lt hj), update_of_ne (Nat.ne_of_lt hj)]

theorem areaFrames_cons (a : Area) (areas : List Area) :
    areaFrames (a :: areas) = areaFrames [a] ++ areaFrames areas := by
  unfold areaFrames
  rw [flatMap_cons, map_append, flatMap_singleton]

theorem areaFrames_append (l l' : List Area) : areaFrames (l ++ l') = areaFrames l ++ areaFrames l' := by
  unfold areaFrames
  rw [flatMap_append, map_append]

theorem areaFrames_area (a : Area) :
    areaFrames [a] = (range' 0 (pageRange a.vmstart a.vmend).length).map fun j => addrToPte (a.mmap j) := by
  unfold areaFrames Area.pages
  rw [flatMap_singleton, map_map, ← zipIdx_map_snd, map_map]
  rfl

theorem areaFrames_empty {areas : List Area} (empty : ∀ a ∈ areas, a.vmend = a.vmstart) :
    areaFrames areas = [] := by
  induction areas with
  | nil => rfl
  | cons a areas ih =>
    rw [forall_mem_cons] at empty
    rw [areaFrames_cons, ih empty.2, areaFrames_area, empty.1]
    unfold pageRange pageSize
    simp

/-- The ways in which `vmalloc` returns: at once, with nothing changed, or after its loop. -/
theorem vmalloc_cases {incrsize : Int} (done : vmalloc s vm incrsize flags = .ok (s', vm', r)) :
    (s' = s ∧ vm' = vm ∧ (incrsize < 0 ∧ r = -1 ∨ incrsize = 0 ∧ r = 0 ∨ s.blocks = [] ∧ r = -1)) ∨
    (0 < incrsize ∧ s.blocks ≠ [] ∧ ∃ blocks mmap, vmallocFrom flags
      (pageRange vm.vmend ((vm.vmend + addrToPte (incrsize.toNat + pageSize - 1)) % 2 ^ 32)) 0 { s with blocks }
      { vm with mmap, vmend := (vm.vmend + addrToPte (incrsize.toNat + pageSize - 1)) % 2 ^ 32 } =
        .ok (s', vm', r)) := by
  simp only [vmalloc] at done
  split at done
  · next negative =>
    cases done
    exact .inl ⟨rfl, rfl, .inl ⟨negative, rfl⟩⟩
  · split at done
    · next zero =>
      cases done
      exact .inl ⟨rfl, rfl, .inr (.inl ⟨zero, rfl⟩)⟩
    · split at done
      · next none =>
        cases done
        exact .inl ⟨rfl, rfl, .inr (.inr ⟨none, rfl⟩)⟩
      · next temp blocks some =>
        refine .inr ⟨by omega, ?_, blocks, _, done⟩
        rw [some]
        exact cons_ne_nil _ _

theorem vmalloc_frames (low : flags < 2 ^ 12) {incrsize : Int}
    (empty : vm.vmend = vm.vmstart) (frame : ∀ f ∈ s.frames, FrameOk f)
    (enough : (incrsize.toNat + pageSize - 1) / pageSize ≤ s.frames.length)
    (done : vmalloc s vm incrsize flags = .ok (s', vm', r)) :
    vm'.vmstart = vm.vmstart ∧ vm'.vmflag = vm.vmflag ∧ s.frames = areaFrames [vm'] ++ s'.frames := by
  have none : areaFrames [vm] = [] := areaFrames_empty (forall_mem_singleton.mpr empty)
  rcases vmalloc_cases done with ⟨rfl, rfl, -⟩ | ⟨-, -, blocks, mmap, loop⟩
  · exact ⟨rfl, rfl, by rw [none, nil_append]⟩
  · have pages : (pageRange vm.vmend ((vm.vmend + addrToPte (incrsize.toNat + pageSize - 1)) % 2 ^ 32)).length ≤
        s.frames.length := by
      refine Nat.le_trans ?_ enough
      unfold pageRange addrToPte pageSize
      rw [length_map, length_range]
      omega
    obtain ⟨start, stop, flag⟩ := vmallocFrom_area loop
    obtain ⟨taken, -⟩ := vmallocFrom_frames (s := { s with blocks }) low frame pages loop
    refine ⟨start, flag, ?_⟩
    rw [areaFrames_area, start, stop, ← empty]
    exact taken

theorem growStack_ok {pa : Nat} {rest : List Nat} (frames : s.frames = pa :: rest)
    (done : growStack s vm = .ok (s', vm', ())) :
    s'.frames = rest ∧ vm'.vmstart = sub32 vm.vmstart pageSize ∧ vm'.vmend = vm.vmend ∧
    vm'.vmflag = vm.vmflag ∧ vm'.mmap 0 = ptePresent ||| (pteRw ||| pteUs) ||| addrToPte pa := by
  simp only [growStack, Space.getUserPage_cons frames] at done
  split at done
  · cases done
  · obtain ⟨⟨s1, r1⟩, mapped, same⟩ := bind_eq_ok.mp done
    have kept := Space.mmap_frames mapped
    obtain ⟨rfl, rfl, -⟩ := same
    refine ⟨kept, rfl, rfl, rfl, ?_⟩
    simp only [update_self]

theorem growStack_frames (empty : vm.vmend = vm.vmstart) (above : pageSize ≤ vm.vmstart)
    (bound : vm.vmstart < 2 ^ 32) (frame : ∀ f ∈ s.frames, FrameOk f) (some : s.frames ≠ [])
    (done : growStack s vm = .ok (s', vm', ())) :
    vm'.vmend ≠ vm'.vmstart ∧ s.frames = areaFrames [vm'] ++ s'.frames := by
  obtain ⟨pa, rest, frames⟩ := exists_cons_of_ne_nil some
  rw [frames, forall_mem_cons] at frame
  obtain ⟨kept, start, stop, -, entry⟩ := growStack_ok frames done
  have down : sub32 vm.vmstart pageSize + pageSize = vm.vmstart := by
    unfold sub32 pageSize at *
    omega
  rw [down.symm.trans (congrArg (· + pageSize) start.symm)] at empty
  have range : pageRange vm'.vmstart vm'.vmend = [vm'.vmstart] := by
    rw [stop, empty]
    unfold pageRange pageSize
    simp
  constructor
  · rw [stop, empty]
    unfold pageSize
    omega
  · rw [areaFrames_area, range, kept, frames]
    change _ = addrToPte (vm'.mmap 0) :: rest
    rw [entry, addrToPte_of_page frame.1.1, addrToPte_word (by decide) frame.1.1]

theorem onFirst_ok {α : Type} {flag : Nat} {grow : Space → Area → Except VmFault (Space × Area × α)}
    {areas areas' : List Area} {r : Option α} (done : onFirst flag grow areas s = .ok (s', areas', r)) :
    (s' = s ∧ areas' = areas ∧ r = none) ∨
    ∃ before a after a' r', areas.find? (fun a => a.vmflag &&& flag ≠ 0) = some a ∧
      areas = before ++ a :: after ∧ grow s a = .ok (s', a', r') ∧ areas' = before ++ a' :: after ∧
      r = some r' := by
  induction areas generalizing areas' with
  | nil =>
    cases done
    exact .inl ⟨rfl, rfl, rfl⟩
  | cons a areas ih =>
    unfold onFirst at done
    split at done
    · next found =>
      obtain ⟨⟨s1, a', r'⟩, grown, same⟩ := bind_eq_ok.mp done
      cases same
      exact .inr ⟨[], a, areas, a', r', find?_cons_of_pos (by simpa using found), rfl, grown, rfl, rfl⟩
    · next other =>
      obtain ⟨⟨s1, rest, r'⟩, later, same⟩ := bind_eq_ok.mp done
      cases same
      rcases ih later with ⟨rfl, rfl, rfl⟩ | ⟨before, b, after, b', r', found, rfl, grown, rfl, rfl⟩
      · exact .inl ⟨rfl, rfl, rfl⟩
      · refine .inr ⟨a :: before, b, after, b', r', ?_, rfl, grown, rfl, rfl⟩
        rw [find?_cons_of_neg (by simpa using other)]
        exact found

theorem onFirst_append {α : Type} {flag : Nat} {grow : Space → Area → Except VmFault (Space × Area × α)}
    {before after : List Area} {a : Area} (others : ∀ b ∈ before, b.vmflag &&& flag = 0)
    (flagged : a.vmflag &&& flag ≠ 0) :
    onFirst flag grow (before ++ a :: after) s =
      grow s a >>= fun p => pure (p.1, before ++ p.2.1 :: after, some p.2.2) := by
  induction before with
  | nil =>
    unfold onFirst
    exact if_pos flagged
  | cons b before ih =>
    rw [forall_mem_cons] at others
    rw [cons_append]
    unfold onFirst
    rw [if_neg (not_not_intro others.1), ih others.2]
    cases grow s a with
    | error e => rfl
    | ok p => rfl

end

/-! ## Copying -/

section

variable {s s' : Space}

theorem vmcopyPage_frames {va e copy : Nat} (frame : ∀ f ∈ s.frames, FrameOk f)
    (done : vmcopyPage s va e = .ok (s', copy)) : s.frames = addrToPte copy :: s'.frames := by
  unfold vmcopyPage at done
  split at done
  · cases done
  · split at done
    · cases frames : s.frames with
      | nil =>
        rw [Space.getUserPage_nil frames] at done
        cases done
      | cons pa rest =>
        rw [frames, forall_mem_cons] at frame
        simp only [Space.getUserPage_cons frames, if_neg frame.1.2] at done
        obtain ⟨s1, saved, done⟩ := bind_eq_ok.mp done
        obtain ⟨⟨s2, r2⟩, freed, done⟩ := bind_eq_ok.mp done
        obtain ⟨⟨s3, r3⟩, mapped, done⟩ := bind_eq_ok.mp done
        split at done
        · cases done
        · obtain ⟨s4, restored, same⟩ := bind_eq_ok.mp done
          cases same
          have kept : s'.frames = rest := by
            rw [Space.memcpy_frames restored, Space.mmap_frames mapped, Space.freemap_frames freed,
              Space.memcpy_frames saved]
          rw [kept, addrToPte_of_page frame.1.1, addrToPte_word (getbit12_lt e) frame.1.1]
    · cases done

theorem vmcopyPages_frames {l : List (Nat × Nat)} {i : Nat} {m m' : Nat → Nat}
    (frame : ∀ f ∈ s.frames, FrameOk f) (done : vmcopyPages l i s m = .ok (s', m')) :
    s.frames = (range' i l.length).map (fun j => addrToPte (m' j)) ++ s'.frames ∧
    ∀ j < i, m' j = m j := by
  induction l generalizing s i m with
  | nil =>
    cases done
    exact ⟨rfl, fun _ _ => rfl⟩
  | cons p l ih =>
    unfold vmcopyPages at done
    obtain ⟨⟨s1, copy⟩, first, done⟩ := bind_eq_ok.mp done
    have taken := vmcopyPage_frames frame first
    rw [taken, forall_mem_cons] at frame
    obtain ⟨rest, before⟩ := ih frame.2 done
    refine ⟨?_, fun j hj => ?_⟩
    · rw [length_cons, range'_succ, map_cons, before i (Nat.lt_succ_self i), update_self, taken, rest]
      rfl
    · rw [before j (Nat.lt_succ_of_lt hj), update_of_ne (Nat.ne_of_lt hj)]

/-- The loop over the areas gives every area of the copy frames of its own. -/
theorem vmcopyAreas_frames {areas areas' : List Area} (frame : ∀ f ∈ s.frames, FrameOk f)
    (done : vmcopyAreas areas s = .ok (s', areas')) :
    s.frames = areaFrames areas' ++ s'.frames ∧
    areas'.map (fun a => (a.vmstart, a.vmend)) = areas.map (fun a => (a.vmstart, a.vmend)) := by
  induction areas generalizing s areas' with
  | nil =>
    cases done
    exact ⟨rfl, rfl⟩
  | cons a areas ih =>
    unfold vmcopyAreas at done
    split at done
    · cases done
    · obtain ⟨⟨s1, m⟩, first, done⟩ := bind_eq_ok.mp done
      obtain ⟨⟨s2, rest⟩, later, same⟩ := bind_eq_ok.mp done
      cases same
      have taken := (vmcopyPages_frames (s := { s with blocks := s.blocks.tail }) frame first).1
      rw [← length_map (f := Prod.fst), pages_fst] at taken
      have mine := areaFrames_area { a with mmap := m }
      have later' : ∀ f ∈ s1.frames, FrameOk f := by
        intro f hf
        apply frame
        rw [taken]
        exact mem_append_right _ hf
      obtain ⟨taken', shape⟩ := ih later' later
      constructor
      · rw [areaFrames_cons, mine, append_assoc, ← taken', ← taken]
      · rw [map_cons, map_cons, shape]

/-- `vmcopy` gives the copy frames of its own and puts the temporary frame back. -/
theorem vmcopy_frames {junk : Area} {src dest : Vmem} (areas : src.mapList ≠ []) (some : s.frames ≠ [])
    (frame : ∀ f ∈ s.frames, FrameOk f) (done : vmcopy s junk src = .ok (s', dest)) :
    s.frames.Perm (areaFrames dest.mapList ++ s'.frames) ∧ dest.size = src.size ∧
    dest.mapList.map (fun a => (a.vmstart, a.vmend)) = src.mapList.map (fun a => (a.vmstart, a.vmend)) := by
  obtain ⟨cf, rest, frames⟩ := exists_cons_of_ne_nil some
  rw [frames, forall_mem_cons] at frame
  obtain ⟨q, r, s1, mapList, -, copied, -, after, rfl⟩ := vmcopy_inv done
  rw [Space.getUserPage_cons frames] at copied after
  obtain ⟨taken, shape⟩ := vmcopyAreas_frames (s := { s with toPaging := q, frames := rest }) frame.2 copied
  change rest = _ at taken
  have nonempty : ¬ src.mapList.isEmpty = true := fun none => areas (isEmpty_iff.mp none)
  rw [if_neg nonempty]
  refine ⟨?_, rfl, shape⟩
  rw [frames, after, taken]
  exact perm_middle.symm

end

/-! ## The sum -/

/-- An empty area has room for a page below it. -/
def BaseOk (vm : Vmem) : Prop :=
  ∀ a ∈ vm.mapList, a.vmend = a.vmstart → pageSize ≤ a.vmstart ∧ a.vmstart < 2 ^ 32

/-- The free frames and those that the processes in `tasks` hold are the frames in `total`. -/
structure Conserved (total tasks : List Nat) (s : VmState) : Prop where
  nodup : tasks.Nodup
  clean : Clean s
  mapped : ∀ t ∈ tasks, (s.vms t).size = 0 → (s.vms t).mapList = []
  base : ∀ t ∈ tasks, BaseOk (s.vms t)
  frames : (s.frames ++ held tasks s).Perm total

section

variable {total tasks : List Nat} {s s' : VmState} {space : Space} {t : Nat} {vm : Vmem}

theorem held_congr (same : ∀ t ∈ tasks, (s'.vms t).mapList = (s.vms t).mapList) : held tasks s' = held tasks s :=
  flatMap_congr fun t ht => congrArg areaFrames (same t ht)

theorem Clean.setVm (ok : Clean s) (clean : vm.size = 0 → ∀ a ∈ vm.mapList, a.vmend = a.vmstart) :
    Clean ({ s with toSpace := space }.setVm t vm) := by
  intro u
  by_cases same : u = t
  · rw [same, setVm_self]
    exact clean
  · rw [setVm_of_ne _ same]
    exact ok u

theorem held_setVm (other : t ∉ tasks) : held tasks ({ s with toSpace := space }.setVm t vm) = held tasks s :=
  held_congr fun _ hu => congrArg Vmem.mapList (setVm_of_ne _ (ne_of_mem_of_not_mem hu other) _)

theorem held_perm (ht : t ∈ tasks) :
    (held tasks s).Perm (areaFrames (s.vms t).mapList ++ held (tasks.erase t) s) :=
  (perm_cons_erase ht).flatMap_right _

section

variable (ok : Conserved total tasks s)

include ok

theorem Conserved.frame (frame : ∀ f ∈ total, FrameOk f) : ∀ f ∈ s.frames, FrameOk f :=
  fun f hf => frame f (ok.frames.subset (mem_append_left _ hf))

theorem Conserved.remapped (same : Remapped s s') : Conserved total tasks s' := by
  constructor
  · exact ok.nodup
  · exact same.clean ok.clean
  · intro t ht zero
    rw [(same.vms t).1]
    exact ok.mapped t ht ((same.vms t).2 zero)
  · intro t ht
    unfold BaseOk
    rw [(same.vms t).1]
    exact ok.base t ht
  · rw [same.frames, held_congr fun t _ => (same.vms t).1]
    exact ok.frames

/-- The memory of `t` is set, and the processes are those in `tasks'`. -/
theorem Conserved.change {tasks' : List Nat} (nodup : tasks'.Nodup) (others : ∀ u ∈ tasks', u ≠ t → u ∈ tasks)
    (clean : vm.size = 0 → ∀ a ∈ vm.mapList, a.vmend = a.vmstart) (mine : t ∈ tasks' → vm.size ≠ 0 ∧ BaseOk vm)
    (frames : (space.frames ++ held tasks' ({ s with toSpace := space }.setVm t vm)).Perm total) :
    Conserved total tasks' ({ s with toSpace := space }.setVm t vm) := by
  refine ⟨nodup, ok.clean.setVm clean, fun u hu => ?_, fun u hu => ?_, frames⟩
  · by_cases same : u = t
    · rw [same, setVm_self]
      exact fun zero => absurd zero (mine (same ▸ hu)).1
    · rw [setVm_of_ne _ same]
      exact ok.mapped u (others u hu same)
  · by_cases same : u = t
    · rw [same, setVm_self]
      exact (mine (same ▸ hu)).2
    · rw [setVm_of_ne _ same]
      exact ok.base u (others u hu same)

theorem Conserved.reset (other : t ∉ tasks)
    (clean : vm.size = 0 → ∀ a ∈ vm.mapList, a.vmend = a.vmstart) : Conserved total tasks (s.setVm t vm) := by
  refine ok.change ok.nodup (fun _ hu _ => hu) clean (fun ht => absurd ht other) ?_
  rw [held_setVm other]
  exact ok.frames

theorem Conserved.spawn (new : t ∉ tasks) (size : vm.size ≠ 0) (base : BaseOk vm)
    (taken : s.frames.Perm (areaFrames vm.mapList ++ space.frames)) :
    Conserved total (tasks ++ [t]) ({ s with toSpace := space }.setVm t vm) := by
  have nodup : (tasks ++ [t]).Nodup := concat_eq_append ▸ ok.nodup.concat new
  refine ok.change nodup (fun u hu other => ?_) (fun zero => absurd zero size) (fun _ => ⟨size, base⟩) ?_
  · exact (mem_append.mp hu).resolve_right fun last => other (mem_singleton.mp last)
  · have sum : held (tasks ++ [t]) ({ s with toSpace := space }.setVm t vm) =
        held tasks s ++ areaFrames vm.mapList := by
      have split := @flatMap_append _ _ tasks [t]
        fun u => areaFrames (({ s with toSpace := space }.setVm t vm).vms u).mapList
      rw [flatMap_singleton, setVm_self] at split
      exact split.trans (congrArg (· ++ _) (held_setVm new))
    rw [sum]
    refine List.Perm.trans ?_ ((taken.symm.append_right _).trans ok.frames)
    -- the frames of the new process move from the end to the front
    rw [← append_assoc, append_assoc (areaFrames _)]
    exact perm_append_comm

theorem Conserved.grow (ht : t ∈ tasks) (areas : (s.vms t).mapList ≠ [])
    (size : vm.size = (s.vms t).size) (base : BaseOk vm) {fs : List Nat} (taken : s.frames = fs ++ space.frames)
    (mine : (areaFrames vm.mapList).Perm (fs ++ areaFrames (s.vms t).mapList)) :
    Conserved total tasks ({ s with toSpace := space }.setVm t vm) := by
  have nonzero : vm.size ≠ 0 := fun zero => areas (ok.mapped t ht (size ▸ zero))
  refine ok.change ok.nodup (fun _ hu _ => hu) (fun zero => absurd zero nonzero) (fun _ => ⟨nonzero, base⟩) ?_
  have rest : t ∉ tasks.erase t := ok.nodup.not_mem_erase
  have sum : (held tasks ({ s with toSpace := space }.setVm t vm)).Perm (fs ++ held tasks s) := by
    refine (held_perm ht).trans ?_
    rw [setVm_self, held_setVm rest]
    refine (mine.append_right _).trans ?_
    rw [append_assoc]
    exact (held_perm ht).symm.append_left _
  refine (sum.append_left _).trans (List.Perm.trans ?_ ok.frames)
  rw [taken, append_assoc]
  exact perm_append_comm_assoc ..

theorem Conserved.remove (none : areaFrames (s.vms t).mapList = []) :
    Conserved total (tasks.erase t) s := by
  constructor
  · exact ok.nodup.erase t
  · exact ok.clean
  · exact fun u hu => ok.mapped u (mem_of_mem_erase hu)
  · exact fun u hu => ok.base u (mem_of_mem_erase hu)
  · by_cases ht : t ∈ tasks
    · have sum := held_perm (s := s) ht
      rw [none, nil_append] at sum
      exact (sum.symm.append_left _).trans ok.frames
    · rw [erase_of_not_mem ht]
      exact ok.frames

end

end

/-! ## Events -/

/-- The processes with their memory. -/
structure Memory extends Executes where
  vm : VmState

/-- `execute` has no program if the command cannot be parsed; `junk` is what a fresh `vm_area_t`
    holds. -/
inductive MemoryEvent where
  | schedule (next : Nat)
  | fork (page : Page) (junk : Area)
  | execute (page : Page) (fds : Files) (program : Option Program)
  | executeEnd
  | exit (status : UInt32)
  | sbrk (size : Nat)
  | pageFault (addr : Nat)

/-- A context switch maps the next process.  `process_free` at the end of `sys_execute` finds the
    state `EXITED` and leaves the memory as it is. -/
def memoryExec (m : Memory) : MemoryEvent → Option Memory
  | .schedule next => do
    let procs ← executeExec m.toExecutes (.schedule next)
    if procs.running = m.running then
      return ⟨procs, m.vm⟩
    else
      return ⟨procs, ← (umap m.vm m.running procs.running).toOption⟩
  | .fork page junk => do
    let vm ← (forkVm m.vm junk m.running page.addr).toOption
    return ⟨← executeExec m.toExecutes (.fork page), vm⟩
  | .execute page fds none => do
    return ⟨← executeExec m.toExecutes (.execute page fds .unparsed), m.vm⟩
  | .execute page fds (some program) => do
    let (vm, errno) ← (execVm program m.vm m.running page.addr false).toOption
    let cmd := if errno < 0 then .unloaded else .program program.shell
    return ⟨← executeExec m.toExecutes (.execute page fds cmd), vm⟩
  | .executeEnd => do
    return ⟨← executeExec m.toExecutes .executeEnd, m.vm⟩
  | .exit status => do
    return ⟨← executeExec m.toExecutes (.exit status), m.vm⟩
  | .sbrk size => do
    let (vm, _) ← (sysSbrk m.vm m.running size).toOption
    return { m with vm }
  | .pageFault addr => do
    return { m with vm := ← (doPageFault m.vm m.running addr).toOption }

/-- The running process is in user mode, so that it has memory. -/
def UserMode (m : Memory) : Prop := Acts m.toExecutes ∧ (m.vm.vms m.running).mapList ≠ []

def MemoryLegal (m : Memory) : MemoryEvent → Prop
  | .schedule _ => True
  | .fork page _ => UserMode m ∧ page.addr ∉ m.taskQueue ∧ page.addr ≠ m.vm.init
  | .execute page _ _ => UserMode m ∧ page.addr ∉ m.taskQueue ∧ page.addr ≠ m.vm.init
  | .executeEnd => ExecuteLegal m.toExecutes .executeEnd
  | .exit _ => Acts m.toExecutes
  | .sbrk _ => UserMode m
  | .pageFault _ => UserMode m

def MemoryStep (m : Memory) (e : MemoryEvent) (m' : Memory) : Prop :=
  MemoryLegal m e ∧ memoryExec m e = some m'

/-- There are frames for the pages of the program, and it can be read to its end. -/
def fits (program : Program) (free : Nat) : Bool :=
  match program.inode with
  | .ok (some inode) =>
    let size := (program.fs.inodes inode).size
    decide (((size + 4095) / 4096).toNat ≤ free) &&
      match readData program.fs inode 0 true size with
      | .ok (r, _) => decide (¬ r < 0)
      | .error _ => true
  | _ => true

/-- The first area with a flag is empty. -/
def FirstEmpty (flag : Nat) (vm : Vmem) : Prop :=
  ∀ a ∈ vm.mapList.find? (fun a => a.vmflag &&& flag ≠ 0), a.vmend = a.vmstart

/-- `sys_sbrk` needs another page. -/
def NeedsPage (vm : Vmem) (size : Nat) : Prop :=
  vm.brk % pageSize = 0 ∨ pageSize < (size + brkOffset vm.brk) % 2 ^ 32

/-- A call is made by a process that has not been freed, and there is a frame for each page it
    takes.  The heap and the stack grow once, a program can be read to its end, and a process
    that is freed holds no frame. -/
def MemoryCareful (m : Memory) : MemoryEvent → Prop
  | .schedule _ => True
  | .fork _ _ => m.running ∈ m.taskQueue ∧ m.vm.frames ≠ []
  | .execute _ _ none => m.running ∈ m.taskQueue
  | .execute _ _ (some program) => m.running ∈ m.taskQueue ∧ fits program m.vm.frames.length = true
  | .executeEnd => ∀ c ∈ (m.threads m.running).children.getLast?, areaFrames (m.vm.vms c).mapList = []
  | .exit _ => True
  | .sbrk size => m.running ∈ m.taskQueue ∧ (NeedsPage (m.vm.vms m.running) size →
      m.vm.frames ≠ [] ∧ FirstEmpty vmHeap (m.vm.vms m.running))
  | .pageFault _ => m.running ∈ m.taskQueue ∧ m.vm.frames ≠ [] ∧ FirstEmpty vmStack (m.vm.vms m.running)

def CarefulMemoryStep (m : Memory) (e : MemoryEvent) (m' : Memory) : Prop :=
  MemoryCareful m e ∧ MemoryStep m e m'

/-! ## The memory of one event -/

section

variable {total tasks : List Nat} {s s' : VmState} {t parent child : Nat}

theorem BaseOk.congr {vm vm' : Vmem} (base : BaseOk vm)
    (shape : vm'.mapList.map (fun a => (a.vmstart, a.vmend)) = vm.mapList.map (fun a => (a.vmstart, a.vmend))) :
    BaseOk vm' := by
  intro a' ha' empty
  have mem := mem_map_of_mem (f := fun a : Area => (a.vmstart, a.vmend)) ha'
  rw [shape] at mem
  obtain ⟨a, ha, same⟩ := mem_map.mp mem
  obtain ⟨start, stop⟩ := Prod.mk.inj same
  rw [← start]
  exact base a ha (stop.trans (empty.trans start.symm))

theorem processVmInit_empty : ∀ a ∈ processVmInit.mapList, a.vmend = a.vmstart := by
  decide

theorem forkVm_conserved {junk : Area} (ok : Conserved total tasks s) (frame : ∀ f ∈ total, FrameOk f)
    (old : parent ∈ tasks) (new : child ∉ tasks) (areas : (s.vms parent).mapList ≠ []) (some : s.frames ≠ [])
    (done : forkVm s junk parent child = .ok s') : Conserved total (tasks ++ [child]) s' := by
  have other : parent ≠ child := fun same => new (same ▸ old)
  obtain ⟨⟨space, vm⟩, copied, mapped⟩ := bind_eq_ok.mp done
  have reset := ok.reset new fun _ => processVmInit_empty
  rw [setVm_of_ne s other] at copied
  obtain ⟨taken, size, shape⟩ := vmcopy_frames areas some (ok.frame frame) copied
  have nonzero : vm.size ≠ 0 := fun zero => areas (ok.mapped parent old (size ▸ zero))
  have spawned := reset.spawn new nonzero ((ok.base parent old).congr shape) taken
  exact spawned.remapped (umap_remapped spawned.clean mapped).1

/-- A `uint32_t` passed as an `int` does not become larger. -/
theorem toInt_toNat_le (x : UInt32) : x.toInt32.toInt.toNat ≤ x.toNat := by
  have word : x.toInt32.toInt = x.toBitVec.toInt := rfl
  rw [word, BitVec.toInt_eq_toNat_cond]
  change _ ≤ x.toBitVec.toNat
  split <;> omega

section

variable (ok : Conserved total tasks s)

include ok

/-- `pro_loader` leaves the memory as it is, or grows the first area. -/
theorem proLoader_conserved {program : Program} {errno : Int} {file : Area} {rest : List Area}
    (frame : ∀ f ∈ total, FrameOk f) (new : child ∉ tasks)
    (mapList : (s.vms child).mapList = file :: rest) (empty : ∀ a ∈ file :: rest, a.vmend = a.vmstart)
    (base : BaseOk (s.vms child)) (size : (s.vms child).size ≠ 0) (fit : fits program s.frames.length = true)
    (done : proLoader program s child = .ok (s', errno)) :
    (errno < 0 ∧ s' = s) ∨ (¬ errno < 0 ∧ Conserved total (tasks ++ [child]) s') := by
  unfold proLoader at done
  obtain ⟨found, inode, done⟩ := bind_eq_ok.mp done
  cases found with
  | none =>
    cases done
    exact .inl ⟨by decide, rfl⟩
  | some i =>
    simp only [mapList] at done
    obtain ⟨⟨space, file', r⟩, grown, done⟩ := bind_eq_ok.mp done
    unfold fits at fit
    simp only [inode, Bool.and_eq_true, decide_eq_true_eq] at fit
    split at done
    · cases done
    · next r bytes read =>
      obtain ⟨space', stored, same⟩ := bind_eq_ok.mp done
      rw [read] at fit
      have fine : ¬ r < 0 := of_decide_eq_true fit.2
      simp only [if_neg fine, pure_eq_ok] at same
      rw [forall_mem_cons] at empty
      have enough : (((((program.fs.inodes i).size + 4095) / 4096) * 4096).toInt32.toInt.toNat + pageSize - 1) /
          pageSize ≤ s.frames.length := by
        refine Nat.le_trans ?_ fit.1
        generalize ((program.fs.inodes i).size + 4095) / 4096 = pages
        have small := toInt_toNat_le (pages * 4096)
        rw [UInt32.toNat_mul] at small
        have wrap := Nat.mod_le (pages.toNat * (4096 : UInt32).toNat) (2 ^ 32)
        change _ ≤ pages.toNat * 4096 at wrap
        unfold pageSize
        omega
      obtain ⟨start, -, taken⟩ := vmalloc_frames (by decide) empty.1 (ok.frame frame) enough grown
      cases same
      refine .inr ⟨by decide, ok.spawn new size ?_ ?_⟩
      · unfold BaseOk at base ⊢
        rw [mapList, forall_mem_cons] at base
        rw [forall_mem_cons]
        refine ⟨fun _ => ?_, base.2⟩
        rw [start]
        exact base.1 empty.1
      · rw [areaFrames_cons, areaFrames_empty empty.2, append_nil, Space.store_frames stored, taken]

/-- `__exec` of a program that is loaded gives the child its frames; otherwise the memory of no
    process has changed. -/
theorem execVm_conserved {program : Program} {errno : Int}
    (frame : ∀ f ∈ total, FrameOk f) (new : child ∉ tasks) (user : child ≠ s.init)
    (fit : fits program s.frames.length = true) (done : execVm program s parent child false = .ok (s', errno)) :
    if errno < 0 then Conserved total tasks s' else Conserved total (tasks ++ [child]) s' := by
  unfold execVm at done
  obtain ⟨s1, mapped, load⟩ := bind_eq_ok.mp done
  have reset := ok.reset new fun _ => processVmInit_empty
  obtain ⟨same, created⟩ := umap_remapped reset.clean mapped
  have ok1 := reset.remapped same
  have mapList : (s1.vms child).mapList = processVmInit.mapList := by
    rw [(same.vms child).1, setVm_self]
  have base : BaseOk (s1.vms child) := by
    unfold BaseOk
    rw [mapList]
    decide
  obtain ⟨⟨s2, errno2⟩, loaded, rest⟩ := bind_eq_ok.mp load
  have fit1 : fits program s1.frames.length = true := by
    rw [same.frames]
    exact fit
  rcases proLoader_conserved ok1 frame new mapList processVmInit_empty base (created user) fit1 loaded with
    ⟨fails, rfl⟩ | ⟨fine, ok2⟩
  · simp only [if_pos fails] at rest
    obtain ⟨s3, back, same⟩ := bind_eq_ok.mp rest
    cases same
    rw [if_pos fails]
    exact ok1.remapped (umap_remapped ok1.clean back).1
  · simp only [if_neg fine, Bool.false_eq_true, if_false, pure_eq_ok] at rest
    cases rest
    exact ok2

/-- The first area with a flag, which was empty, has taken the frames `fs`. -/
theorem Conserved.grow_first (ht : t ∈ tasks) {space : Space} {vm : Vmem}
    {before after : List Area} {a a' : Area} (mapList : (s.vms t).mapList = before ++ a :: after)
    (empty : a.vmend = a.vmstart) (grown : vm.mapList = before ++ a' :: after)
    (size : vm.size = (s.vms t).size) (base : a'.vmend = a'.vmstart → a'.vmstart = a.vmstart)
    (taken : s.frames = areaFrames [a'] ++ space.frames) :
    Conserved total tasks ({ s with toSpace := space }.setVm t vm) := by
  have areas : (s.vms t).mapList ≠ [] := by
    rw [mapList]
    exact append_ne_nil_of_right_ne_nil _ (cons_ne_nil _ _)
  have old := ok.base t ht
  unfold BaseOk at old
  rw [mapList, forall_mem_append, forall_mem_cons] at old
  refine ok.grow ht areas size ?_ taken ?_
  · unfold BaseOk
    rw [grown, forall_mem_append, forall_mem_cons]
    refine ⟨old.1, fun none => ?_, old.2.2⟩
    rw [base none]
    exact old.2.1 empty
  · rw [grown, mapList, areaFrames_append, areaFrames_append, areaFrames_cons, areaFrames_cons a,
      areaFrames_empty (forall_mem_singleton.mpr empty), nil_append]
    exact perm_append_comm_assoc ..

theorem sysSbrk_conserved {size brk : Nat} (frame : ∀ f ∈ total, FrameOk f) (ht : t ∈ tasks)
    (careful : NeedsPage (s.vms t) size → s.frames ≠ [] ∧ FirstEmpty vmHeap (s.vms t))
    (done : sysSbrk s t size = .ok (s', brk)) : Conserved total tasks s' := by
  -- only `brk` changes
  have moved : ∀ {s : VmState} {n : Nat}, Conserved total tasks s →
      Conserved total tasks (s.setVm t { s.vms t with brk := n }) :=
    fun ok => ok.remapped (.setVm rfl ⟨rfl, id⟩)
  simp only [sysSbrk] at done
  split at done
  · next needs =>
    obtain ⟨some, empty⟩ := careful needs
    obtain ⟨⟨space, mapList, r⟩, grown, done⟩ := bind_eq_ok.mp done
    have ok' : Conserved total tasks ({ s with toSpace := space }.setVm t { s.vms t with mapList }) := by
      rcases onFirst_ok grown with ⟨rfl, rfl, -⟩ | ⟨before, a, after, a', r', found, split, one, rfl, -⟩
      · exact ok.remapped (.setVm rfl ⟨rfl, id⟩)
      · have none := empty a found
        have enough : ((pageSize : Int).toNat + pageSize - 1) / pageSize ≤ s.frames.length :=
          length_pos_iff.mpr some
        obtain ⟨start, -, taken⟩ := vmalloc_frames (by decide) none (ok.frame frame) enough one
        exact ok.grow_first ht split none rfl rfl (fun _ => start) taken
    split at done
    · cases done
      exact ok'
    · split at done
      · cases done
        exact ok'
      · obtain ⟨-, -, done⟩ := bind_eq_ok.mp done
        cases done
        exact moved ok'
  · cases done
    exact moved ok

theorem doPageFault_conserved {addr : Nat} (frame : ∀ f ∈ total, FrameOk f)
    (ht : t ∈ tasks) (some : s.frames ≠ []) (empty : FirstEmpty vmStack (s.vms t))
    (done : doPageFault s t addr = .ok s') : Conserved total tasks s' := by
  unfold doPageFault at done
  split at done
  · obtain ⟨⟨space, mapList, r⟩, grown, done⟩ := bind_eq_ok.mp done
    rcases onFirst_ok grown with ⟨rfl, rfl, rfl⟩ | ⟨before, a, after, a', r', found, split, one, rfl, rfl⟩
    · cases done
    · cases done
      have none := empty a found
      have mem : a ∈ (s.vms t).mapList := mem_of_find?_eq_some found
      obtain ⟨above, bound⟩ := ok.base t ht a mem none
      obtain ⟨larger, taken⟩ := growStack_frames none above bound (ok.frame frame) some one
      exact ok.grow_first ht split none rfl rfl (fun same => absurd same larger) taken
  · cases done

end

end

/-! ## The processes of one event -/

section

variable {m m' : Executes} {page : Page}

theorem schedule_tasks {next : Nat} (done : executeExec m (.schedule next) = some m') :
    m'.taskQueue = m.taskQueue := by
  obtain ⟨k, scheduled, rfl⟩ := map_eq_some_iff.mp done
  rcases schedule_spec (toOption_eq_some.mp scheduled) with rfl | ⟨-, switched⟩
  · rfl
  · exact switched.taskQueue

theorem fork_tasks (other : m.running ≠ page.addr) (done : executeExec m (.fork page) = some m') :
    m'.taskQueue = m.taskQueue ++ [page.addr] := by
  obtain ⟨⟨k, pid⟩, forked, rfl⟩ := map_eq_some_iff.mp done
  obtain ⟨k1, k', pid', ran, added, same⟩ := doFork_spec m.toProcesses other
  cases (toOption_eq_some.mp forked).symm.trans ran
  exact same.taskQueue.trans added.taskQueue

theorem execute_tasks {fds : Files} {shell : Bool} (other : m.running ≠ page.addr)
    (done : executeExec m (.execute page fds (.program shell)) = some m') :
    m'.taskQueue = m.taskQueue ++ [page.addr] := by
  obtain ⟨⟨k, status⟩, executed, same⟩ := map_eq_some_iff.mp done
  obtain ⟨k1, k2, k', ran, added, active, rfl⟩ := executeBegin_program m.toProcesses fds shell other
  cases (toOption_eq_some.mp executed).symm.trans ran
  cases same
  exact active.taskQueue.trans added.taskQueue

theorem execute_fails_tasks {fds : Files} {cmd : Command} (other : m.running ≠ page.addr)
    (fresh : page.addr ∉ m.taskQueue) (bad : ∀ shell, cmd ≠ .program shell)
    (done : executeExec m (.execute page fds cmd) = some m') : m'.taskQueue = m.taskQueue := by
  obtain ⟨⟨k, status⟩, executed, same⟩ := map_eq_some_iff.mp done
  obtain ⟨rfl, tree⟩ := executeBegin_fails other bad (toOption_eq_some.mp executed)
  cases same
  rcases tree with rfl | ⟨k1, added, removed⟩
  · rfl
  · exact removed.taskQueue_added added fresh

theorem executeEnd_tasks (done : executeExec m .executeEnd = some m') :
    ∃ c ∈ (m.threads m.running).children.getLast?, m'.taskQueue = m.taskQueue.erase c := by
  obtain ⟨⟨k, value, c⟩, ended, rfl⟩ := map_eq_some_iff.mp done
  obtain ⟨last, -, removed⟩ := executeEnd_spec (toOption_eq_some.mp ended)
  exact ⟨c, last, removed.taskQueue⟩

theorem exit_tasks {status : UInt32} (done : executeExec m (.exit status) = some m') :
    m'.taskQueue = m.taskQueue := by
  obtain ⟨k, exited, rfl⟩ := map_eq_some_iff.mp done
  obtain ⟨-, k1, k2, placed, told, -, rfl⟩ := doExit_spec exited
  refine (schedExit_sameTree _ _ _).taskQueue.trans ?_
  exact told.taskQueue.trans placed.taskQueue

end

/-- Memory in which the sum is defined: the frames are distinct pages, a process that has not been
    mapped yet has no areas, and empty areas are above the first page. -/
structure MemoryOk (m : Memory) : Prop where
  tasks : m.taskQueue.Nodup
  clean : Clean m.vm
  mapped : ∀ t ∈ m.taskQueue, (m.vm.vms t).size = 0 → (m.vm.vms t).mapList = []
  base : ∀ t ∈ m.taskQueue, BaseOk (m.vm.vms t)
  frame : ∀ f ∈ m.vm.frames ++ held m.taskQueue m.vm, FrameOk f
  distinct : (m.vm.frames ++ held m.taskQueue m.vm).Nodup

/-- The number of free frames and of frames that a process refers to. -/
def frameSum (m : Memory) : Nat := m.vm.frames.length + (held m.taskQueue m.vm).toFinset.card

section

variable {total : List Nat} {m m' : Memory}

theorem Conserved.step {e : MemoryEvent} (frame : ∀ f ∈ total, FrameOk f)
    (ok : Conserved total m.taskQueue m.vm) (step : CarefulMemoryStep m e m') :
    Conserved total m'.taskQueue m'.vm := by
  obtain ⟨careful, legal, done⟩ := step
  cases e with
  | schedule next =>
    obtain ⟨procs, scheduled, done⟩ := bind_eq_some_iff.mp done
    rw [← schedule_tasks scheduled] at ok
    split at done
    · cases done
      exact ok
    · obtain ⟨vm, mapped, same⟩ := bind_eq_some_iff.mp done
      cases same
      exact ok.remapped (umap_remapped ok.clean (toOption_eq_some.mp mapped)).1
  | fork page junk =>
    obtain ⟨⟨-, areas⟩, new, -⟩ := legal
    obtain ⟨old, some⟩ := careful
    obtain ⟨vm, forked, done⟩ := bind_eq_some_iff.mp done
    obtain ⟨procs, process, same⟩ := bind_eq_some_iff.mp done
    cases same
    rw [fork_tasks (fun same => new (same ▸ old)) process]
    exact forkVm_conserved ok frame old new areas some (toOption_eq_some.mp forked)
  | execute page fds program =>
    obtain ⟨-, new, user⟩ := legal
    cases program with
    | none =>
      unfold memoryExec at done
      obtain ⟨procs, process, same⟩ := bind_eq_some_iff.mp done
      cases same
      rw [execute_fails_tasks (fun same => new (same ▸ careful)) new (fun _ same => by cases same) process]
      exact ok
    | some program =>
      obtain ⟨old, fit⟩ := careful
      have other : m.running ≠ page.addr := fun same => new (same ▸ old)
      obtain ⟨⟨vm, errno⟩, loaded, done⟩ := bind_eq_some_iff.mp done
      obtain ⟨procs, process, same⟩ := bind_eq_some_iff.mp done
      cases same
      have ok' := execVm_conserved ok frame new user fit (toOption_eq_some.mp loaded)
      split at ok'
      · next fails =>
        rw [if_pos fails] at process
        rw [execute_fails_tasks other new (fun _ same => by cases same) process]
        exact ok'
      · next fine =>
        rw [if_neg fine] at process
        rw [execute_tasks other process]
        exact ok'
  | executeEnd =>
    obtain ⟨procs, process, same⟩ := bind_eq_some_iff.mp done
    cases same
    obtain ⟨c, last, tasks⟩ := executeEnd_tasks process
    rw [tasks]
    exact ok.remove (careful c last)
  | exit status =>
    obtain ⟨procs, process, same⟩ := bind_eq_some_iff.mp done
    cases same
    rw [exit_tasks process]
    exact ok
  | sbrk size =>
    obtain ⟨⟨vm, brk⟩, grown, same⟩ := bind_eq_some_iff.mp done
    cases same
    exact sysSbrk_conserved ok frame careful.1 careful.2 (toOption_eq_some.mp grown)
  | pageFault addr =>
    obtain ⟨vm, grown, same⟩ := bind_eq_some_iff.mp done
    cases same
    exact doPageFault_conserved ok frame careful.1 careful.2.1 careful.2.2 (toOption_eq_some.mp grown)

end

/-- In every run whose steps all meet the condition, the frames that are free or that a process
    refers to stay the same: their number is constant, and a frame that no process refers to any
    more is free. -/
theorem frames_conserved {m m' : Memory} (start : MemoryOk m) {events : List MemoryEvent}
    (run : Run CarefulMemoryStep m events m') :
    frameSum m' = frameSum m ∧
    ∀ f ∈ held m.taskQueue m.vm, f ∉ held m'.taskQueue m'.vm → f ∈ m'.vm.frames := by
  have first : Conserved (m.vm.frames ++ held m.taskQueue m.vm) m.taskQueue m.vm :=
    ⟨start.tasks, start.clean, start.mapped, start.base, .refl _⟩
  have last := run.invariant
    (fun m e m' (ok : Conserved _ m.taskQueue m.vm) (step : CarefulMemoryStep m e m') =>
      ok.step start.frame step) first
  have distinct := last.frames.nodup_iff.mpr start.distinct
  have sum : ∀ {m : Memory}, (m.vm.frames ++ held m.taskQueue m.vm).Nodup →
      frameSum m = (m.vm.frames ++ held m.taskQueue m.vm).length := by
    intro m nodup
    unfold frameSum
    rw [toFinset_card_of_nodup (nodup_append.mp nodup).2.1, length_append]
  constructor
  · rw [sum distinct, sum start.distinct, last.frames.length_eq]
  · intro f before gone
    have mem := last.frames.mem_iff.mpr (mem_append_right _ before)
    exact (mem_append.mp mem).resolve_right gone

instance (m : Memory) : Decidable (UserMode m) := inferInstanceAs (Decidable (_ ∧ _))

instance (m : Memory) (e : MemoryEvent) : Decidable (MemoryLegal m e) :=
  match e with
  | .schedule _ => inferInstanceAs (Decidable True)
  | .fork _ _ | .execute _ _ _ => inferInstanceAs (Decidable (_ ∧ _))
  | .executeEnd => inferInstanceAs (Decidable (ExecuteLegal m.toExecutes .executeEnd))
  | .exit _ => inferInstanceAs (Decidable (Acts m.toExecutes))
  | .sbrk _ | .pageFault _ => inferInstanceAs (Decidable (UserMode m))

instance (flag : Nat) (vm : Vmem) : Decidable (FirstEmpty flag vm) :=
  inferInstanceAs (Decidable (∀ a ∈ vm.mapList.find? _, _))

instance (vm : Vmem) (size : Nat) : Decidable (NeedsPage vm size) := inferInstanceAs (Decidable (_ ∨ _))

instance (m : Memory) (e : MemoryEvent) : Decidable (MemoryCareful m e) :=
  match e with
  | .schedule _ | .exit _ => inferInstanceAs (Decidable True)
  | .fork _ _ | .execute _ _ (some _) | .sbrk _ | .pageFault _ => inferInstanceAs (Decidable (_ ∧ _))
  | .execute _ _ none => inferInstanceAs (Decidable (m.running ∈ m.taskQueue))
  | .executeEnd => inferInstanceAs (Decidable (∀ c ∈ (m.threads m.running).children.getLast?, _))

/-- A program of four bytes in a file system with one file. -/
def tinyProgram : Program :=
  { fs :=
      { nDir := 1
        nInode := 1
        nDatab := 1
        dirs := fun _ => ⟨fun i => if i = 0 then 0x61 else 0, .regular, 0⟩
        inodes := fun _ => ⟨4, fun _ => 0⟩
        data := fun _ i => magicNumber.getD i.toNat 0 }
    fname := fun i => if i = 0 then 0x61 else 0
    header := fun _ => 0
    shell := false }

/-- A shell with one page, and seven free frames. -/
def shellMemory : Memory :=
  { oneShell with
    vm :=
      { toPaging := { oneTable 0x8048000 0x4000007 with pages := [0x2000, 0x3000, 0x4000] }
        frames := [0x5000000, 0x5001000, 0x5002000, 0x5003000, 0x5004000, 0x5005000, 0x5006000]
        mem := fun _ _ => 0
        blocks := replicate 8 fun _ => 0
        vms := fun t => if t = 10 then onePage 0x8048000 0x4000000 else processVmInit
        init := 0 } }

theorem shellMemory_ok : MemoryOk shellMemory := by
  have tasks : ∀ t ∈ shellMemory.taskQueue, t = 10 := fun t ht => mem_singleton.mp ht
  have shell : shellMemory.vm.vms 10 = onePage 0x8048000 0x4000000 := rfl
  constructor
  · exact nodup_singleton _
  · intro t
    change (if t = 10 then onePage 0x8048000 0x4000000 else processVmInit).size = 0 →
      ∀ a ∈ (if t = 10 then onePage 0x8048000 0x4000000 else processVmInit).mapList, a.vmend = a.vmstart
    split
    · exact fun zero => absurd zero Nat.one_ne_zero
    · exact fun _ => processVmInit_empty
  · intro t ht zero
    rw [tasks t ht, shell] at zero
    exact absurd zero Nat.one_ne_zero
  · intro t ht
    rw [tasks t ht, shell]
    unfold BaseOk
    decide
  · decide +kernel
  · decide +kernel

/-- The shell executes a program, which grows its heap and its stack and forks. -/
theorem frames_conserved_program :
    ∃ m, Run CarefulMemoryStep shellMemory
        [.execute ⟨20, blankThread⟩ blankFiles (some tinyProgram), .schedule 20, .sbrk 100,
          .pageFault 0xBFFFFF0, .fork ⟨30, blankThread⟩ ⟨fun _ => 0, 0, 0, 0⟩] m ∧
      m.taskQueue = [10, 20, 30] ∧ frameSum m = frameSum shellMemory := by
  have found : (attempt (fun m e => MemoryCareful m e ∧ MemoryLegal m e) memoryExec shellMemory
      [.execute ⟨20, blankThread⟩ blankFiles (some tinyProgram), .schedule 20, .sbrk 100,
        .pageFault 0xBFFFFF0, .fork ⟨30, blankThread⟩ ⟨fun _ => 0, 0, 0, 0⟩]).any
      (fun m => m.taskQueue = [10, 20, 30]) = true := by
    decide +kernel
  obtain ⟨m, run, test⟩ := exists_run CarefulMemoryStep
    (fun _ _ _ pass done => ⟨pass.1, pass.2, done⟩) found
  exact ⟨m, run, of_decide_eq_true test, (frames_conserved shellMemory_ok run).1⟩

/-- The program exits, and its frame is neither free nor held by a process. -/
theorem reaped_frame_lost :
    ∃ m, Run MemoryStep shellMemory
        [.execute ⟨20, blankThread⟩ blankFiles (some tinyProgram), .schedule 20, .exit 7, .schedule 10,
          .executeEnd] m ∧
      m.taskQueue = [10] ∧ frameSum m + 1 = frameSum shellMemory ∧
      0x5000000 ∈ shellMemory.vm.frames ∧ 0x5000000 ∉ m.vm.frames ++ held m.taskQueue m.vm := by
  have found : (attempt MemoryLegal memoryExec shellMemory
      [.execute ⟨20, blankThread⟩ blankFiles (some tinyProgram), .schedule 20, .exit 7, .schedule 10,
        .executeEnd]).any
      (fun m => m.taskQueue = [10] ∧ frameSum m + 1 = frameSum shellMemory ∧
        0x5000000 ∈ shellMemory.vm.frames ∧ 0x5000000 ∉ m.vm.frames ++ held m.taskQueue m.vm) = true := by
    decide +kernel
  obtain ⟨m, run, test⟩ := exists_run MemoryStep (fun _ _ _ pass done => ⟨pass, done⟩) found
  exact ⟨m, run, of_decide_eq_true test⟩

end Illinix.Verified.Vm
