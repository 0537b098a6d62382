import Illinix.Verified.Terminal.Boot
import Illinix.Lib.Run

/-! # Each console has its own screen

The screen of a console is video memory while the console is in the foreground and its
backup page otherwise.  Three redirections follow it: `terminal->vidmem` for output of the
kernel, `saved_vidmem` for the copies at a switch, and the slot of the console in
`vidmap_table` for stores by user programs.  They agree after every run of terminal switches
and output. -/

namespace Illinix.Verified.Terminal

open Kernel Lib Function List
open Verified.Process (blankThread modify_field modify_self modify_of_ne enqueueTask_field)

variable {c : Nat} {m : Machine}

/-- A machine, and the consoles that have been in the foreground. -/
structure Screens extends Machine where
  been : List Nat

/-- Where the screen of console `c` is. -/
def screenBase (m : Machine) (c : Nat) : Nat := if m.current = c then video else backupOf c

/-- A byte of the screen of console `c`. -/
def virtualScreen (m : Machine) (c off : Nat) : UInt8 := m.mem (screenBase m c + off)

/-- The physical address of a user address in the 4 MB of `vidmap_table`. -/
def userTranslate (table : Nat → Nat) (va : Nat) : Option Nat :=
  let pte := table (va / 4096 % 1024)
  if pte % 2 = 1 ∧ pte / 4 % 2 = 1 then some (pte / 4096 * 4096 + va % 4096) else none

/-! ## Events -/

/-- Besides switches and output, a process of the console can become its task or change its
    state, and a user program can store through the pointer from `vidmap`. -/
inductive ScreenEvent where
  | switch (scancode idx : Nat)
  | putc (c : UInt8) (console : Nat)
  | store (console off : Nat) (value : UInt8)
  | task (console p : Nat)
  | state (p : Nat) (state : ProState)

section

-- the terminal of each console
variable (own : Nat → Nat)

def ScreenStep (s : Screens) : ScreenEvent → Screens → Prop
  | .switch scancode idx, s' =>
    idx < 3 ∧ ∃ h m, s.foregroundTerminal = some h ∧
      terminalSwitch s.toMachine scancode h idx = .ok m ∧
      s' = ⟨m, if scancode = (s.consoles s.current).fkey.toNat then s.been else idx :: s.been⟩
  | .putc c console, s' =>
    console < 3 ∧ s' = { s with toMachine := putcTo s.toMachine c (own console) }
  | .store console off value, s' =>
    console < 3 ∧ off < vidmemSize ∧
      ∃ a, userTranslate s.vidmapTable ((s.consoles console).vidmap + off) = some a ∧
        s' = { s with mem := Function.update s.mem a value }
  | .task console p, s' =>
    console < 3 ∧ (s.threads p).terminal = some (own console) ∧ (s.threads p).state ≠ .unused ∧
      s' = { s with toProcesses := s.setTask console p }
  | .state p state, s' =>
    state ≠ .unused ∧ s' = { s with toProcesses := s.modify p fun t => { t with state } }

/-- The task of console `c` has not been started. -/
def Unstarted (m : Machine) (c : Nat) : Prop := (m.threads (m.consoles c).task).state = .unused

/-- What a step may do to the screens. -/
def ScreensKept (s : Screens) : ScreenEvent → Screens → Prop
  | .switch scancode idx, s' =>
    (∀ c < 3, ∀ off < vidmemSize, virtualScreen s'.toMachine c off = virtualScreen s.toMachine c off) ∨
    -- the first start of the console blanks its screen
    scancode ≠ (s.consoles s.current).fkey.toNat ∧ Unstarted s.toMachine idx ∧ idx ∉ s.been ∧
      (∀ c < 3, c ≠ idx → ∀ off < vidmemSize,
        virtualScreen s'.toMachine c off = virtualScreen s.toMachine c off) ∧
      ∀ i < numRows * numCols, virtualScreen s'.toMachine idx (2 * i) = blank ∧
        virtualScreen s'.toMachine idx (2 * i + 1) = attrib
  | .putc _ console, s' =>
    ∀ c < 3, c ≠ console → ∀ off < vidmemSize,
      virtualScreen s'.toMachine c off = virtualScreen s.toMachine c off
  | .store console off value, s' =>
    virtualScreen s'.toMachine console off = value ∧
    ∀ c < 3, ∀ off' < vidmemSize, (c, off') ≠ (console, off) →
      virtualScreen s'.toMachine c off' = virtualScreen s.toMachine c off'
  | .task _ _, s' | .state _ _, s' =>
    ∀ c < 3, ∀ off < vidmemSize, virtualScreen s'.toMachine c off = virtualScreen s.toMachine c off

/-- The slot of a console maps its screen for user programs. -/
def SlotOk (m : Machine) (c : Nat) : Prop :=
  m.vidmapTable (vidmapSlot c) = userPte (screenBase m c) ∧
  ∀ off < vidmemSize,
    userTranslate m.vidmapTable ((m.consoles c).vidmap + off) = some (screenBase m c + off)

/-! ## Invariant -/

structure ScreenInv (s : Screens) : Prop where
  booted : s.terminalBoot = true
  current : s.current < 3
  been : s.current ∈ s.been
  id : ∀ c < 3, (s.consoles c).id = c
  vidmap : ∀ c < 3, (s.consoles c).vidmap = 0x8400000 + video + 4096 * c
  task : ∀ c < 3, (s.threads (s.consoles c).task).terminal = some (own c)
  saved : ∀ c < 3, (s.terminals (own c)).savedVidmem = backupOf c
  vidmem : ∀ c < 3, (s.terminals (own c)).vidmem = screenBase s.toMachine c
  cursor : ∀ c < 3, CursorOk (s.terminals (own c))
  slot : ∀ c < 3, c ∈ s.been → s.vidmapTable (vidmapSlot c) = userPte (screenBase s.toMachine c)
  absent : ∀ c < 3, c ∉ s.been → s.vidmapTable (vidmapSlot c) = 0
  unstarted : ∀ c < 3, Unstarted s.toMachine c → c ∉ s.been

end

/-! ## Addresses -/

theorem screenBase_disjoint {c' : Nat} (hc : c < 3) (hc' : c' < 3) (other : c ≠ c') :
    screenBase m c + vidmemSize ≤ screenBase m c' ∨ screenBase m c' + vidmemSize ≤ screenBase m c := by
  unfold screenBase backupOf video videoBuf1 vidmemSize
  split <;> split <;> omega

theorem userPte_screenBase (hc : c < 3) :
    userPte (screenBase m c) / 4096 * 4096 = screenBase m c ∧ userPte (screenBase m c) % 8 = 7 := by
  unfold screenBase
  split
  · decide
  · unfold userPte backupOf videoBuf1
    omega

theorem ScreenInv.slotOk {own : Nat → Nat} {s : Screens} (inv : ScreenInv own s) (hc : c < 3)
    (been : c ∈ s.been) : SlotOk s.toMachine c := by
  refine ⟨inv.slot c hc been, fun off inside => ?_⟩
  have page : ((s.consoles c).vidmap + off) / 4096 % 1024 = vidmapSlot c ∧
      ((s.consoles c).vidmap + off) % 4096 = off := by
    rw [inv.vidmap c hc]
    unfold vidmapSlot video vidmemSize at *
    omega
  obtain ⟨frame, flags⟩ := userPte_screenBase (m := s.toMachine) hc
  unfold userTranslate
  simp only [page, inv.slot c hc been, frame]
  exact if_pos (by omega)

/-! ## Switching -/

/-- Video memory after the two copies of a switch. -/
def swappedMem (m : Machine) (h hn : Nat) : VideoMem :=
  copyMem (copyMem m.mem (m.terminals h).savedVidmem video vidmemSize) video
    (m.terminals hn).savedVidmem vidmemSize

/-- What a switch from terminal `h` to terminal `hn` of thread `next` does. -/
structure Swapped (m : Machine) (h hn next : Nat) (m' : Machine) : Prop where
  mem : m'.mem =
    if (m.threads next).state = .unused then vgaClear (swappedMem m h hn) video else swappedMem m h hn
  saved : ∀ t, (m'.terminals t).savedVidmem = (m.terminals t).savedVidmem
  vidmem : ∀ t, (m'.terminals t).vidmem =
    if t = hn then video else if t = h then (m.terminals h).savedVidmem else (m.terminals t).vidmem
  cursor : ∀ t, CursorOk (m'.terminals t) ↔ CursorOk (m.terminals t)
  consoles : m'.consoles = m.consoles
  booted : m'.terminalBoot = m.terminalBoot
  terminal : ∀ q, (m'.threads q).terminal = (m.threads q).terminal
  state : ∀ q, (m'.threads q).state = .unused ↔ (m.threads q).state = .unused ∧ q ≠ next

/-- The machine between the two copies and the start of the next task. -/
def swappedOut (m : Machine) (h hn : Nat) : Machine :=
  { m with
    mem := swappedMem m h hn
    terminals := Function.update m.terminals h
      { m.terminals h with vidmem := (m.terminals h).savedVidmem, alt := false } }

theorem swapScreens_eq (m : Machine) (h hn next : Nat) :
    ∃ cursor, swapScreens m h hn next = { startTask (swappedOut m h hn) next with
        terminals := update (swappedOut m h hn).terminals hn
          { (swappedOut m h hn).terminals hn with vidmem := video }
        cursor := cursor } := by
  have saved : ((m.setTerminal h { m.terminals h with
      vidmem := (m.terminals h).savedVidmem, alt := false }).terminals hn).savedVidmem =
      (m.terminals hn).savedVidmem := by
    exact setTerminal_field (·.savedVidmem) (by rfl) hn
  have before : swappedOut m h hn =
      { m.setTerminal h { m.terminals h with vidmem := (m.terminals h).savedVidmem, alt := false } with
        mem := copyMem (copyMem m.mem (m.terminals h).savedVidmem video vidmemSize) video
          ((m.setTerminal h { m.terminals h with
            vidmem := (m.terminals h).savedVidmem, alt := false }).terminals hn).savedVidmem
          vidmemSize } := by
    rw [saved]
    rfl
  have swapped : swapScreens m h hn next = vgaUpdateCursor
        ((startTask (swappedOut m h hn) next).setTerminal hn
          { (startTask (swappedOut m h hn) next).terminals hn with vidmem := video })
        ((startTask (swappedOut m h hn) next).terminals hn).screenX.toNat
        ((startTask (swappedOut m h hn) next).terminals hn).screenY.toNat := by
    rw [before]
    rfl
  rw [swapped]
  unfold vgaUpdateCursor Machine.setTerminal
  rw [startTask_terminals]
  exact ⟨_, rfl⟩

theorem swapScreens_spec (m : Machine) (h hn next : Nat) :
    Swapped m h hn next (swapScreens m h hn next) ∧
    (swapScreens m h hn next).vidmapTable = m.vidmapTable ∧
    (swapScreens m h hn next).current = m.current := by
  obtain ⟨cursor, shape⟩ := swapScreens_eq m h hn next
  have field : ∀ {α : Type} (g : Terminal → α), (∀ t vidmem alt, g { t with vidmem, alt } = g t) →
      ∀ t, g ((swapScreens m h hn next).terminals t) = g (m.terminals t) := by
    intro α g kept t
    rw [shape]
    refine (setTerminal_field (m := swappedOut m h hn) g (kept _ _ _) t).trans ?_
    exact setTerminal_field g (kept _ _ _) t
  refine ⟨?_, ?_, ?_⟩
  · constructor
    · rw [shape]
      exact startTask_mem ..
    · exact field (·.savedVidmem) fun _ _ _ => rfl
    · intro t
      rw [shape]
      change ((update _ hn _ : Nat → Terminal) t).vidmem = _
      rcases eq_or_ne t hn with rfl | other
      · rw [update_self, if_pos rfl]
      · rw [update_of_ne other, if_neg other]
        change ((update _ h _ : Nat → Terminal) t).vidmem = _
        rcases eq_or_ne t h with rfl | other'
        · rw [update_self, if_pos rfl]
        · rw [update_of_ne other', if_neg other']
    · intro t
      exact iff_of_eq (field CursorOk (fun _ _ _ => rfl) t)
    · exact (startTask_rescheduled _ next).consoles
    · exact (startTask_kept ..).2
    · intro q
      exact (startTask_rescheduled _ next).thread (g := (·.terminal)) (fun _ _ _ _ _ => rfl) q
    · intro q
      exact startTask_state _ next q
  · exact (startTask_kept ..).1
  · exact (startTask_rescheduled _ next).current

/-- A switch to another key's console returns, swaps the screens and their slots, and makes
    the console current. -/
theorem terminalSwitch_spec {scancode h idx hn hs : Nat} (other : scancode ≠ (m.consoles m.current).fkey.toNat)
    (next : (m.threads (m.consoles idx).task).terminal = some hn)
    (prev : (m.threads (m.consoles (m.consoles m.current).id).task).terminal = some hs) :
    ∃ m', terminalSwitch m scancode h idx = .ok m' ∧ Swapped m h hn (m.consoles idx).task m' ∧
      m'.current = idx ∧
      m'.vidmapTable = update (update m.vidmapTable (vidmapSlot (m.consoles m.current).id)
          (userPte (m.terminals hs).savedVidmem)) (vidmapSlot idx) (userPte video) := by
  obtain ⟨swapped, table, current⟩ := swapScreens_spec m h hn (m.consoles idx).task
  have first : m.consoleTerminal idx = .ok hn := by
    unfold Machine.consoleTerminal
    rw [next]
    rfl
  unfold terminalSwitch
  rw [if_neg other, first, ok_bind]
  generalize swapScreens m h hn (m.consoles idx).task = m1 at *
  have second : m1.consoleTerminal (m.consoles m.current).id = .ok hs := by
    unfold Machine.consoleTerminal
    rw [swapped.consoles, swapped.terminal, prev]
    rfl
  have moved : switchVidmap m1 (m1.consoles m1.current).id idx = .ok { m1 with
        vidmapTable := update (update m.vidmapTable (vidmapSlot (m.consoles m.current).id)
            (userPte (m.terminals hs).savedVidmem)) (vidmapSlot idx) (userPte video) } := by
    unfold switchVidmap
    rw [swapped.consoles, current, second, ok_bind, swapped.saved, table]
    rfl
  simp only [moved, ok_bind]
  refine ⟨_, rfl, ?_, rfl, rfl⟩
  exact ⟨swapped.mem, swapped.saved, swapped.vidmem, swapped.cursor, swapped.consoles,
    swapped.booted, swapped.terminal, swapped.state⟩

/-! ## Steps -/

section

variable {own : Nat → Nat} {s s' : Screens} {c console idx off : Nat} {m : Machine}

/-- The terminals differ, since their backup pages do. -/
theorem ScreenInv.own_ne (inv : ScreenInv own s) {c' : Nat} (hc : c < 3) (hc' : c' < 3)
    (other : c ≠ c') : own c ≠ own c' := by
  intro same
  have pages := inv.saved c hc
  rw [same, inv.saved c' hc'] at pages
  unfold backupOf at pages
  omega

theorem ScreenInv.foregroundTerminal (inv : ScreenInv own s) :
    s.foregroundTerminal = some (own s.current) :=
  inv.task _ inv.current

theorem screenBase_switched (current : m.current = idx) (c : Nat) :
    screenBase m c = if idx = c then video else backupOf c := by
  rw [screenBase, current]

theorem backupOf_apart (c : Nat) : video + vidmemSize ≤ backupOf c := by
  unfold backupOf video videoBuf1 vidmemSize
  omega

theorem ScreenInv.swappedMem_screen (inv : ScreenInv own s) (hidx : idx < 3) (inside : off < vidmemSize) :
    swappedMem s.toMachine (own s.current) (own idx) ((if idx = c then video else backupOf c) + off) =
      virtualScreen s.toMachine c off := by
  have apart := backupOf_apart c
  have apart' : s.current ≠ c → backupOf s.current + vidmemSize ≤ backupOf c ∨
      backupOf c + vidmemSize ≤ backupOf s.current := by
    intro other
    unfold backupOf vidmemSize
    omega
  -- the first copy saves video memory in the backup page of the foreground
  have first : copyMem s.mem (backupOf s.current) video vidmemSize (backupOf c + off) =
      virtualScreen s.toMachine c off := by
    unfold copyMem virtualScreen screenBase
    by_cases foreground : s.current = c
    · rw [if_pos foreground, foreground, if_pos (by omega), Nat.add_sub_cancel_left]
    · rw [if_neg foreground, if_neg (by have := apart' foreground; omega)]
  unfold swappedMem
  rw [inv.saved _ inv.current, inv.saved _ hidx]
  rw [copyMem]
  by_cases target : idx = c
  · rw [if_pos target, if_pos (by omega), target, Nat.add_sub_cancel_left]
    exact first
  · rw [if_neg target, if_neg (by omega)]
    exact first

theorem vidmapSlot_ne {c' : Nat} (other : c ≠ c') : vidmapSlot c ≠ vidmapSlot c' := by
  unfold vidmapSlot
  omega

section

variable (inv : ScreenInv own s)

include inv

theorem ScreenInv.switched (hidx : idx < 3)
    (swapped : Swapped s.toMachine (own s.current) (own idx) (s.consoles idx).task m)
    (current : m.current = idx)
    (table : m.vidmapTable = update
      (update s.vidmapTable (vidmapSlot s.current) (userPte (backupOf s.current)))
      (vidmapSlot idx) (userPte video)) :
    ScreenInv own ⟨m, idx :: s.been⟩ := by
  have slots : ∀ c < 3, c ≠ idx → m.vidmapTable (vidmapSlot c) =
      if c = s.current then userPte (backupOf c) else s.vidmapTable (vidmapSlot c) := by
    intro c _ other
    rw [table, update_of_ne (vidmapSlot_ne other)]
    by_cases foreground : c = s.current
    · rw [if_pos foreground, foreground, update_self]
    · rw [if_neg foreground, update_of_ne (vidmapSlot_ne foreground)]
  constructor
  · exact swapped.booted.trans inv.booted
  · exact current ▸ hidx
  · exact current ▸ mem_cons_self
  · intro c hc
    exact (congrArg (fun consoles => (consoles c).id) swapped.consoles).trans (inv.id c hc)
  · intro c hc
    exact (congrArg (fun consoles => (consoles c).vidmap) swapped.consoles).trans (inv.vidmap c hc)
  · intro c hc
    rw [swapped.terminal, swapped.consoles]
    exact inv.task c hc
  · intro c hc
    exact (swapped.saved _).trans (inv.saved c hc)
  · intro c hc
    rw [swapped.vidmem, screenBase_switched current]
    by_cases target : c = idx
    · rw [if_pos (congrArg own target), if_pos target.symm]
    · rw [if_neg (inv.own_ne hc hidx target), if_neg (Ne.symm target)]
      by_cases foreground : c = s.current
      · rw [if_pos (congrArg own foreground), foreground]
        exact inv.saved _ inv.current
      · rw [if_neg (inv.own_ne hc inv.current foreground), inv.vidmem c hc, screenBase,
          if_neg (Ne.symm foreground)]
  · intro c hc
    exact (swapped.cursor _).mpr (inv.cursor c hc)
  · intro c hc been
    rw [screenBase_switched current]
    by_cases target : c = idx
    · rw [table, target, update_self, if_pos rfl]
    · rw [slots c hc target, if_neg (Ne.symm target)]
      by_cases foreground : c = s.current
      · rw [if_pos foreground]
      · rw [if_neg foreground, inv.slot c hc ((mem_cons.mp been).resolve_left target),
          screenBase, if_neg (Ne.symm foreground)]
  · intro c hc never
    rw [mem_cons, not_or] at never
    have background : c ≠ s.current := fun same => never.2 (same ▸ inv.been)
    refine (slots c hc never.1).trans ?_
    rw [if_neg background]
    exact inv.absent c hc never.2
  · intro c hc unstarted been
    change (m.threads (m.consoles c).task).state = .unused at unstarted
    rw [swapped.consoles] at unstarted
    obtain ⟨unused, other⟩ := (swapped.state _).mp unstarted
    rcases mem_cons.mp been with rfl | before
    · exact other rfl
    · exact inv.unstarted c hc unused before

theorem ScreenInv.switched_kept {scancode : Nat} (hidx : idx < 3)
    (other : scancode ≠ (s.consoles s.current).fkey.toNat)
    (swapped : Swapped s.toMachine (own s.current) (own idx) (s.consoles idx).task m)
    (current : m.current = idx) (been : List Nat) :
    ScreensKept s (.switch scancode idx) ⟨m, been⟩ := by
  have mem := swapped.mem
  by_cases unused : (s.threads (s.consoles idx).task).state = .unused
  · rw [if_pos unused] at mem
    refine .inr ⟨other, unused, inv.unstarted idx hidx unused, ?_, ?_⟩
    · intro c hc background off inside
      have kept := inv.swappedMem_screen hidx inside (c := c)
      have apart := backupOf_apart c
      rw [if_neg (Ne.symm background)] at kept
      change m.mem (screenBase m c + off) = _
      rw [screenBase_switched current, if_neg (Ne.symm background), mem,
        vgaClear_onScreen _ video _ (.inr ?_)]
      · exact kept
      · unfold screenBytes numRows numCols vidmemSize at *
        omega
    · intro i hi
      have place : screenBase m idx = video := by rw [screenBase_switched current, if_pos rfl]
      change m.mem (screenBase m idx + 2 * i) = _ ∧ m.mem (screenBase m idx + (2 * i + 1)) = _
      rw [place, mem]
      exact vgaClear_blank _ video hi
  · rw [if_neg unused] at mem
    refine .inl fun c hc off inside => ?_
    change m.mem (screenBase m c + off) = _
    rw [screenBase_switched current, mem]
    exact inv.swappedMem_screen hidx inside (c := c)

/-- A switch never faults, keeps the invariant and the screens. -/
theorem ScreenInv.switch (scancode : Nat) (hidx : idx < 3) :
    ∃ s', ScreenStep own s (.switch scancode idx) s' ∧ ScreenInv own s' ∧
      ScreensKept s (.switch scancode idx) s' := by
  by_cases same : scancode = (s.consoles s.current).fkey.toNat
  · refine ⟨s, ⟨hidx, own s.current, s.toMachine, inv.foregroundTerminal, ?_, ?_⟩, inv, ?_⟩
    · exact if_pos same
    · rw [if_pos same]
    · exact .inl fun _ _ _ _ => rfl
  · obtain ⟨m, done, swapped, current, table⟩ :=
      terminalSwitch_spec (h := own s.current) same (inv.task idx hidx)
        (by rw [inv.id _ inv.current]; exact inv.task _ inv.current)
    rw [inv.saved _ inv.current, inv.id _ inv.current] at table
    refine ⟨⟨m, idx :: s.been⟩, ⟨hidx, own s.current, m, inv.foregroundTerminal, done, ?_⟩,
      inv.switched hidx swapped current table, inv.switched_kept hidx same swapped current _⟩
    rw [if_neg same]

theorem ScreenInv.putc (c : UInt8) (hc : console < 3) :
    ScreenInv own { s with toMachine := putcTo s.toMachine c (own console) } := by
  have drawn := putcTo_drawn s.toMachine c (own console)
  have processes := drawn.toProcesses
  have saved := drawn.field (·.savedVidmem) fun _ _ _ => rfl
  have vidmem := drawn.field (·.vidmem) fun _ _ _ => rfl
  obtain ⟨cursor, shape⟩ := putcTo_booted inv.booted c (own console)
  have base : ∀ c', screenBase (putcTo s.toMachine c (own console)) c' =
      screenBase s.toMachine c' := by
    intro c'
    unfold screenBase
    rw [processes]
  obtain ⟨-, row⟩ := inv.cursor console hc
  have inside : ∀ h, CursorOk (s.terminals h) →
      CursorOk ((putcTo s.toMachine c (own console)).terminals h) := by
    intro h ok
    rw [shape]
    change CursorOk ((update _ (own console) _ : Nat → Terminal) h)
    rcases eq_or_ne h (own console) with rfl | other
    · rw [update_self]
      obtain ⟨newX, newY⟩ := emit_cursor s.mem (s.terminals (own console)).vidmem
        (x := (s.terminals (own console)).screenX.toNat) c row
      constructor
      · exact (toUInt8_toNat newX (by decide)).symm ▸ newX
      · exact (toUInt8_toNat newY (by decide)).symm ▸ newY
    · rw [update_of_ne other]
      exact ok
  have table : (putcTo s.toMachine c (own console)).vidmapTable = s.vidmapTable := by rw [shape]
  have boot : (putcTo s.toMachine c (own console)).terminalBoot = s.terminalBoot := by rw [shape]
  generalize putcTo s.toMachine c (own console) = m at *
  constructor
  · exact boot.trans inv.booted
  · exact processes ▸ inv.current
  · exact processes ▸ inv.been
  · exact processes ▸ inv.id
  · exact processes ▸ inv.vidmap
  · exact processes ▸ inv.task
  · exact fun c' hc' => (saved _).trans (inv.saved c' hc')
  · exact fun c' hc' => (vidmem _).trans ((inv.vidmem c' hc').trans (base c').symm)
  · exact fun c' hc' => inside _ (inv.cursor c' hc')
  · exact fun c' hc' been => (congrFun table _).trans
      ((inv.slot c' hc' been).trans (congrArg userPte (base c').symm))
  · exact fun c' hc' never => (congrFun table _).trans (inv.absent c' hc' never)
  · intro c' hc' unstarted
    change (m.threads (m.consoles c').task).state = .unused at unstarted
    rw [processes] at unstarted
    exact inv.unstarted c' hc' unstarted

theorem ScreenInv.putc_kept (c : UInt8) (hc : console < 3) :
    ScreensKept s (.putc c console) { s with toMachine := putcTo s.toMachine c (own console) } := by
  obtain ⟨cursor, shape⟩ := putcTo_booted inv.booted c (own console)
  intro c' hc' other off inside
  change (putcTo s.toMachine c (own console)).mem
    (screenBase (putcTo s.toMachine c (own console)) c' + off) = _
  have base : screenBase (putcTo s.toMachine c (own console)) c' = screenBase s.toMachine c' := by
    unfold screenBase
    rw [(putcTo_drawn ..).toProcesses]
  rw [base, shape]
  apply emit_onScreen _ _ c (inv.cursor console hc).1 (inv.cursor console hc).2
  rw [inv.vidmem console hc]
  have apart := screenBase_disjoint (m := s.toMachine) hc' hc other
  unfold screenBytes numRows numCols
  unfold vidmemSize at *
  omega

/-- A store through the user mapping of a console lands on its screen; before the console has
    been in the foreground its slot is not present and the store faults. -/
theorem ScreenInv.store_addr {a : Nat} (hc : console < 3) (inside : off < vidmemSize)
    (mapped : userTranslate s.vidmapTable ((s.consoles console).vidmap + off) = some a) :
    a = screenBase s.toMachine console + off := by
  by_cases been : console ∈ s.been
  · have slot := (inv.slotOk hc been).2 off inside
    rw [mapped] at slot
    exact Option.some.inj slot
  · have page : ((s.consoles console).vidmap + off) / 4096 % 1024 = vidmapSlot console := by
      rw [inv.vidmap console hc]
      unfold vidmapSlot video vidmemSize at *
      omega
    unfold userTranslate at mapped
    rw [page, inv.absent console hc been] at mapped
    cases mapped

end

theorem store_kept (value : UInt8) (hc : console < 3) (inside : off < vidmemSize) :
    ScreensKept s (.store console off value)
      { s with mem := update s.mem (screenBase s.toMachine console + off) value } := by
  constructor
  · exact update_self ..
  · intro c hc' off' inside' other
    apply update_of_ne
    change screenBase s.toMachine c + off' ≠ _
    by_cases same : c = console
    · subst same
      intro addr
      exact other (by rw [Nat.add_left_cancel addr])
    · have apart := screenBase_disjoint (m := s.toMachine) hc' hc same
      omega

theorem ScreenInv.setTask (inv : ScreenInv own s) {p : Nat}
    (terminal : (s.threads p).terminal = some (own console))
    (started : (s.threads p).state ≠ .unused) :
    ScreenInv own { s with toProcesses := s.setTask console p } := by
  have field : ∀ {α : Type} (g : Console → α) (c : Nat),
      (∀ console task, g { console with task } = g console) →
      g ((s.setTask console p).consoles c) = g (s.consoles c) := by
    intro α g c kept
    change g ((update s.consoles console _ : Nat → Console) c) = _
    rcases eq_or_ne c console with rfl | other
    · rw [update_self]
      exact kept _ _
    · rw [update_of_ne other]
  constructor
  · exact inv.booted
  · exact inv.current
  · exact inv.been
  · exact fun c hc => (field (·.id) c fun _ _ => rfl).trans (inv.id c hc)
  · exact fun c hc => (field (·.vidmap) c fun _ _ => rfl).trans (inv.vidmap c hc)
  · intro c hc
    change (s.threads ((update s.consoles console _ : Nat → Console) c).task).terminal = _
    rcases eq_or_ne c console with rfl | other
    · rw [update_self]
      exact terminal
    · rw [update_of_ne other]
      exact inv.task c hc
  · exact inv.saved
  · exact inv.vidmem
  · exact inv.cursor
  · exact inv.slot
  · exact inv.absent
  · intro c hc unstarted
    change (s.threads ((update s.consoles console _ : Nat → Console) c).task).state = _ at unstarted
    rcases eq_or_ne c console with rfl | other
    · rw [update_self] at unstarted
      exact absurd unstarted started
    · rw [update_of_ne other] at unstarted
      exact inv.unstarted c hc unstarted

theorem ScreenInv.state (inv : ScreenInv own s) (p : Nat) {state : ProState} (started : state ≠ .unused) :
    ScreenInv own { s with toProcesses := s.modify p fun t => { t with state } } := by
  refine { inv with task := ?_, unstarted := ?_ }
  · intro c hc
    refine Eq.trans ?_ (inv.task c hc)
    exact modify_field (·.terminal) (f := fun t => { t with state }) rfl _
  · intro c hc unstarted
    change ((update s.threads p _ : Nat → Thread) (s.consoles c).task).state = _ at unstarted
    rcases eq_or_ne (s.consoles c).task p with same | other
    · rw [same, update_self] at unstarted
      exact absurd unstarted started
    · rw [update_of_ne other] at unstarted
      exact inv.unstarted c hc unstarted

theorem ScreenInv.step {e : ScreenEvent} (inv : ScreenInv own s) (step : ScreenStep own s e s') :
    ScreenInv own s' ∧ ScreensKept s e s' := by
  cases e with
  | switch scancode idx =>
    obtain ⟨hidx, h, m, foreground, done, rfl⟩ := step
    obtain ⟨s', ⟨-, h', m', foreground', done', rfl⟩, after⟩ := inv.switch scancode hidx
    cases foreground.symm.trans foreground'
    cases done.symm.trans done'
    exact after
  | putc c console =>
    obtain ⟨hc, rfl⟩ := step
    exact ⟨inv.putc c hc, inv.putc_kept c hc⟩
  | store console off value =>
    obtain ⟨hc, inside, a, mapped, rfl⟩ := step
    cases inv.store_addr hc inside mapped
    exact ⟨{ inv with }, store_kept value hc inside⟩
  | task console p =>
    obtain ⟨hc, terminal, started, rfl⟩ := step
    exact ⟨inv.setTask terminal started, fun _ _ _ _ => rfl⟩
  | state p state =>
    obtain ⟨started, rfl⟩ := step
    exact ⟨inv.state p started, fun _ _ _ _ => rfl⟩

end

/-! ## Runs -/

section

variable {shells blocks : Nat → Nat} {m : Machine}

/-- The state after `console_init`. -/
def bootScreens (m : Machine) (shells blocks : Nat → Nat) : Screens :=
  ⟨consoleInit m shells blocks, [0]⟩

theorem bootScreens_inv (differ : ∀ i < 3, ∀ j < 3, i ≠ j → shells i ≠ shells j ∧ blocks i ≠ blocks j)
    (table : m.vidmapTable = vidmapInit) (cursors : ∀ i < 3, CursorOk (m.terminals (blocks i))) :
    ScreenInv blocks (bootScreens m shells blocks) := by
  have created := Created.boot (m := m) differ
  unfold bootScreens consoleInit
  generalize (range 3).foldl (consoleCreate · shells blocks ·) m = m1 at *
  constructor
  · rfl
  · exact Nat.zero_lt_succ _
  · exact mem_singleton_self 0
  · exact created.id
  · exact created.vidmap
  · intro c hc
    refine Eq.trans ?_ (created.terminal c hc)
    rw [← created.task c hc]
    exact modify_field (·.terminal) (f := fun t => { t with onRq := true, state := .runnable }) rfl _
  · exact fun c hc => (setTerminal_field (·.savedVidmem) (by rfl) _).trans (created.saved c hc)
  · intro c hc
    change ((update m1.terminals (blocks 0) _ : Nat → Terminal) (blocks c)).vidmem =
      if 0 = c then video else backupOf c
    rcases eq_or_ne c 0 with rfl | other
    · rw [update_self, if_pos rfl]
    · rw [update_of_ne (differ c hc 0 (by decide) other).2, if_neg other.symm]
      exact created.vidmem c hc
  · intro c hc
    refine (iff_of_eq (setTerminal_field CursorOk (by rfl) _)).mpr ?_
    exact (created.cursor _).mpr (cursors c hc)
  · intro c _ been
    cases mem_singleton.mp been
    exact congrFun (created.table.trans table) _
  · intro c _ never
    refine (congrFun (created.table.trans table) _).trans ?_
    unfold vidmapInit vidmapSlot
    exact if_neg (fun same => never (mem_singleton.mpr (by omega)))
  · intro c _ unstarted been
    cases mem_singleton.mp been
    -- the shell of console 0 has been made runnable
    change ((update m1.threads (shells 0) _ : Nat → Thread) (m1.consoles 0).task).state = _ at unstarted
    rw [created.task 0 (by decide), update_self] at unstarted
    cases unstarted

end

/-- After every run from `console_init`, each console that has been in the foreground has its
    own screen mapped in its slot, every further step keeps the screens of the other consoles,
    and a terminal switch returns. -/
theorem screens_isolated {m : Machine} {shells blocks : Nat → Nat}
    (differ : ∀ i < 3, ∀ j < 3, i ≠ j → shells i ≠ shells j ∧ blocks i ≠ blocks j)
    (table : m.vidmapTable = vidmapInit) (cursors : ∀ i < 3, CursorOk (m.terminals (blocks i)))
    {s : Screens} {events : List ScreenEvent}
    (run : Run (ScreenStep blocks) (bootScreens m shells blocks) events s) :
    (∀ c < 3, (s.terminals (blocks c)).savedVidmem = backupOf c) ∧
    (∀ c < 3, c ∈ s.been → SlotOk s.toMachine c) ∧
    (∀ e s', ScreenStep blocks s e s' → ScreensKept s e s') ∧
    ∀ scancode, ∀ idx < 3, ∃ s', ScreenStep blocks s (.switch scancode idx) s' := by
  have inv : ScreenInv blocks s :=
    run.invariant
      (fun s e t (inv : ScreenInv blocks s) (step : ScreenStep blocks s e t) => (inv.step step).1)
      (bootScreens_inv differ table cursors)
  refine ⟨inv.saved, fun c hc been => inv.slotOk hc been, fun e s' step => (inv.step step).2, ?_⟩
  intro scancode idx hidx
  obtain ⟨s', step, -⟩ := inv.switch scancode hidx
  exact ⟨s', step⟩

/-- The three shells after `console_init` on zeroed memory: a store by the program on console 0
    through its mapping, then a switch to console 1. -/
theorem screens_isolated_switch :
    ∃ s, Run (ScreenStep id) (bootScreens blankMachine id id) [.store 0 8 65, .switch 0x1f 1] s ∧
      (∀ c < 3, (s.terminals (id c)).savedVidmem = backupOf c) ∧
      (∀ c < 3, c ∈ s.been → SlotOk s.toMachine c) ∧
      (∀ e s', ScreenStep id s e s' → ScreensKept s e s') ∧
      ∀ scancode, ∀ idx < 3, ∃ s', ScreenStep id s (.switch scancode idx) s' := by
  have differ : ∀ i < 3, ∀ j < 3, i ≠ j → (id i : Nat) ≠ id j ∧ (id i : Nat) ≠ id j :=
    fun _ _ _ _ other => ⟨other, other⟩
  have inside : CursorOk blankTerminal := ⟨by decide, by decide⟩
  have cursors : ∀ i < 3, CursorOk (blankMachine.terminals (id i)) := fun _ _ => inside
  have boot := bootScreens_inv (m := blankMachine) differ rfl cursors
  have mapped := (boot.slotOk (c := 0) (by decide) boot.been).2 8 (by decide)
  have stored : ScreenStep id (bootScreens blankMachine id id) (.store 0 8 65) _ :=
    ⟨by decide, by decide, _, mapped, rfl⟩
  obtain ⟨s, switched, -⟩ := (boot.step stored).1.switch 0x1f (show 1 < 3 by decide)
  have run := Run.cons stored (.cons switched (.nil s))
  exact ⟨s, run, screens_isolated differ rfl cursors run⟩

end Illinix.Verified.Terminal
