import Illinix.Kernel.Process

/-! # Terminals, keyboard and screen

`drivers/terminal.c`, `drivers/keyboard.c`, `drivers/vga.c` and the output part of
`lib/io.c`.  Terminals are named by address, as threads are.  Video memory and the three
backup pages are bytes of one physical memory, which the kernel maps at the same addresses;
the line buffers and the `terminal_t` structures are `kmalloc` blocks apart from it.

`terminal_read` is kept in the parts between which interrupts are taken: the lookups at the
start of the call, a scan of the line buffer, and the copy. -/

namespace Illinix.Kernel

open List Function

/-! ## Video memory -/

abbrev VideoMem := Nat → UInt8

def video : Nat := 0xB8000

def videoBuf1 : Nat := 0xD0000

def attrib : UInt8 := 7

def numCols : Nat := 80

def numRows : Nat := 25

def vidmemSize : Nat := 4096

/-- Stores one character cell, the `i`-th of the screen at `vidmem`. -/
def setCell (mem : VideoMem) (vidmem i : Nat) (c : UInt8) : VideoMem :=
  update (update mem (vidmem + 2 * i) c) (vidmem + 2 * i + 1) attrib

def vgaWrite (mem : VideoMem) (vidmem : Nat) (x y : UInt8) (c : UInt8) : VideoMem :=
  setCell mem vidmem (numCols * y.toNat + x.toNat) c

/-- `' '` -/
def blank : UInt8 := 32

def vgaClear (mem : VideoMem) (vidmem : Nat) : VideoMem :=
  (range (numRows * numCols)).foldl (fun mem i => setCell mem vidmem i blank) mem

def vgaScrolling (mem : VideoMem) (vidmem : Nat) : VideoMem :=
  let rest := numCols * (numRows - 1)
  let mem := (range rest).foldl
    (fun mem i => setCell mem vidmem i (mem (vidmem + 2 * (i + numCols)))) mem
  (range' rest numCols).foldl (fun mem i => setCell mem vidmem i blank) mem

/-- `memcpy(dest, src, n)` of blocks that do not overlap. -/
def copyMem (mem : VideoMem) (dest src n : Nat) : VideoMem :=
  fun a => if dest ≤ a ∧ a < dest + n then mem (src + (a - dest)) else mem a

/-- `'\n'` -/
def newline : UInt8 := 10

/-- `'\r'` -/
def carriageReturn : UInt8 := 13

/-- The body of `_putc`: video memory and cursor after the character. -/
def emit (mem : VideoMem) (vidmem x y : Nat) (c : UInt8) : VideoMem × Nat × Nat :=
  if c = newline ∨ c = carriageReturn then
    if y + 1 = numRows then (vgaScrolling mem vidmem, 0, y) else (mem, 0, y + 1)
  else
    let mem := vgaWrite mem vidmem x.toUInt8 y.toUInt8 c
    let x := (x + 1) % numCols
    if x = 0 then
      if y + 1 ≠ numRows then (mem, x, y + 1) else (vgaScrolling mem vidmem, x, y)
    else
      (mem, x, y)

/-! ## Terminals -/

def terbufSize : Nat := 128

instance : NeZero terbufSize := ⟨by decide⟩

/-- `terminal_t`.  Every store to `bufhd` and `buftl` is reduced modulo the size of the
    buffer, and the key flags are 0 or 1. -/
structure Terminal where
  capslock : Bool
  shift : Bool
  ctrl : Bool
  alt : Bool
  bufhd : Fin terbufSize
  buftl : Fin terbufSize
  size : UInt8
  buffer : Fin terbufSize → UInt8
  exit : Bool
  screenX : UInt8
  screenY : UInt8
  vidmem : Nat
  savedVidmem : Nat

/-- `terminal_create` on a block `mem` from `kmalloc`; the cursor and the addresses of the
    video memory are not set. -/
def terminalCreate (mem : Terminal) : Terminal :=
  { mem with
    capslock := false, shift := false, ctrl := false, alt := false
    bufhd := 0, buftl := 0, size := 0, exit := false }

/-- `terminal->size == TERBUF_SIZE` -/
def Terminal.full (t : Terminal) : Bool := t.size.toNat = terbufSize

/-- The part of `in` that stores the character. -/
def Terminal.insert (t : Terminal) (c : UInt8) : Terminal :=
  let t := if t.full then { t with bufhd := Fin.ofNat _ (t.bufhd + 1) } else t
  let t := { t with
    buffer := update t.buffer t.buftl c, buftl := Fin.ofNat _ (t.buftl + 1) }
  if t.full then t else { t with size := t.size + 1 }

/-- The part of `backspace` that removes the character. -/
def Terminal.erase (t : Terminal) : Terminal :=
  if t.buftl = 0 then
    { t with size := t.size - 1, buftl := Fin.ofNat _ (terbufSize - 1) }
  else
    { t with size := t.size - 1, buftl := Fin.ofNat _ (t.buftl - 1) }

/-- The `for` loop of `terminal_read`, `remaining` characters before the end of the queue:
    `nread`, and whether a newline was found. -/
def scanLoop (t : Terminal) : Nat → Nat → Fin terbufSize → Nat × Bool
  | 0, nread, _ => (nread, false)
  | remaining + 1, nread, start =>
    if t.buffer start = newline ∨ t.buffer start = carriageReturn then
      (nread + 1, true)
    else
      scanLoop t remaining (nread + 1) (Fin.ofNat _ (start + 1))

/-- One pass through the `while` loop of `terminal_read`. -/
def Terminal.scan (t : Terminal) : Nat × Bool := scanLoop t t.size.toNat 0 t.bufhd

def bufcpy (buffer : Fin terbufSize → UInt8) : Nat → Fin terbufSize → List UInt8
  | 0, _ => []
  | nbytes + 1, i => buffer i :: bufcpy buffer nbytes (Fin.ofNat _ (i + 1))

/-- The part of `terminal_read` after the loop: the terminal and the bytes for the user. -/
def Terminal.consume (t : Terminal) (nread nbytes : Nat) : Terminal × List UInt8 :=
  let count := if nbytes < nread then nbytes else nread
  ({ t with bufhd := Fin.ofNat _ (t.bufhd + count), size := t.size - count.toUInt8 },
    bufcpy t.buffer count t.bufhd)

/-! ## The machine -/

/-- The processes with their terminals and the screen. -/
structure Machine extends Processes where
  terminals : Nat → Terminal
  mem : VideoMem
  vidmapTable : Nat → Nat
  /-- the position in the cursor registers of the VGA -/
  cursor : Nat
  terminalBoot : Bool
  screenX : Nat
  screenY : Nat

def Machine.setTerminal (m : Machine) (h : Nat) (t : Terminal) : Machine :=
  { m with terminals := update m.terminals h t }

/-- `current->task->terminal` -/
def Machine.foregroundTerminal (m : Machine) : Option Nat := (m.threads m.foreground).terminal

def vgaUpdateCursor (m : Machine) (x y : Nat) : Machine :=
  { m with cursor := (y % 2 ^ 8 * numCols + x % 2 ^ 8) % 2 ^ 16 }

/-- `_putc(c, terminal)` -/
def putcTo (m : Machine) (c : UInt8) (h : Nat) : Machine :=
  if m.terminalBoot then
    let t := m.terminals h
    let (mem, x, y) := emit m.mem t.vidmem t.screenX.toNat t.screenY.toNat c
    let m := { m with mem }
    let m := m.setTerminal h { t with screenX := x.toUInt8, screenY := y.toUInt8 }
    if m.foregroundTerminal = some h then vgaUpdateCursor m x y else m
  else
    let (mem, x, y) := emit m.mem video m.screenX m.screenY c
    vgaUpdateCursor { m with mem, screenX := x, screenY := y } x y

/-- `back(terminal)` -/
def back (m : Machine) (h : Nat) : Machine :=
  let t := m.terminals h
  if t.screenX = 0 ∧ t.screenY = 0 then
    m
  else
    let t :=
      if t.screenX = 0 then
        { t with screenX := (numCols - 1).toUInt8, screenY := t.screenY - 1 }
      else
        { t with screenX := t.screenX - 1 }
    let m := m.setTerminal h t
    let m := { m with mem := vgaWrite m.mem t.vidmem t.screenX t.screenY blank }
    if m.foregroundTerminal = some h then vgaUpdateCursor m t.screenX.toNat t.screenY.toNat else m

/-- `putc(c)`: to the terminal of the running thread. -/
def putc (m : Machine) (c : UInt8) : Except Fault Machine :=
  if m.terminalBoot then
    match (m.threads m.running).terminal with
    | some h => pure (putcTo m c h)
    | none => throw .nullDeref
  else
    pure (putcTo m c 0)

def clear (m : Machine) : Except Fault Machine :=
  if m.terminalBoot then
    match m.foregroundTerminal with
    | some h =>
      let t := m.terminals h
      let m := { m with mem := vgaClear m.mem t.vidmem }
      pure (m.setTerminal h { t with screenX := 0, screenY := 0 })
    | none => throw .nullDeref
  else
    pure { m with mem := vgaClear m.mem video, screenX := 0, screenY := 0 }

/-! ## Keys -/

def scancodes : List (UInt8 × UInt8) :=
  [(0, 0), (27, 0), (49, 33), (50, 64), (51, 35), (52, 36), (53, 37), (54, 94), (55, 38), (56, 42),
   (57, 40), (48, 41), (45, 95), (61, 43), (8, 8),
   (0, 0), (113, 81), (119, 87), (101, 69), (114, 82), (116, 84), (121, 89), (117, 85), (105, 73),
   (111, 79), (112, 80), (91, 123), (93, 125),
   (13, 13), (0, 0), (97, 65), (115, 83), (100, 68), (102, 70), (103, 71), (104, 72), (106, 74),
   (107, 75), (108, 76), (59, 58), (39, 34),
   (96, 126), (0, 0), (92, 124), (122, 90), (120, 88), (99, 67), (118, 86), (98, 66), (110, 78),
   (109, 77), (44, 60), (46, 62), (47, 63),
   (0, 0), (0, 0), (0, 0), (32, 32)]

def keyboardSize : Nat := 58

/-- The character that `in` stores for a key, 0 for none. -/
def keyChar (scancode : Nat) (caps : Bool) : UInt8 :=
  if keyboardSize ≤ scancode then
    0
  else
    let (lower, upper) := scancodes.getD scancode (0, 0)
    let character := if caps then upper else lower
    if character = carriageReturn then newline else character

/-- `in(scancode, caps, terminal)` -/
def inKey (m : Machine) (scancode : Nat) (caps : Bool) (h : Nat) : Machine :=
  let character := keyChar scancode caps
  if character = 0 then
    m
  else
    let m := putcTo m character h
    m.setTerminal h ((m.terminals h).insert character)

/-- `backspace(terminal)` -/
def backspace (m : Machine) (h : Nat) : Machine :=
  if (m.terminals h).size = 0 then
    m
  else
    let m := back m h
    m.setTerminal h (m.terminals h).erase

def spaceKey : Nat := 0x39

/-- `out_tab(n, terminal)` -/
def outTab (m : Machine) (n h : Nat) : Machine :=
  (range (n - numCols % n)).foldl (fun m _ => inKey m spaceKey false h) m

def isletter (scancode : Nat) : Bool :=
  (0x10 ≤ scancode ∧ scancode ≤ 0x19) ∨ (0x1e ≤ scancode ∧ scancode ≤ 0x26) ∨
    (0x2c ≤ scancode ∧ scancode ≤ 0x32)

/-! ## Switching terminals -/

/-- `PTE_PRESENT | PTE_RW | PTE_US | ADDR_TO_PTE(addr)` -/
def userPte (addr : Nat) : Nat := 7 + addr / 4096 % 2 ^ 20 * 4096

/-- The slot of console `c` in `vidmap_table`. -/
def vidmapSlot (c : Nat) : Nat := video / 4096 + c

/-- The terminal of `consoles[c]->task`. -/
def Machine.consoleTerminal (m : Machine) (c : Nat) : Except Fault Nat :=
  match (m.threads (m.consoles c).task).terminal with
  | some h => pure h
  | none => throw .nullDeref

def switchVidmap (m : Machine) (src dest : Nat) : Except Fault Machine := do
  let h ← m.consoleTerminal src
  let saved := userPte (m.terminals h).savedVidmem
  let table := update m.vidmapTable (vidmapSlot src) saved
  return { m with vidmapTable := update table (vidmapSlot dest) (userPte video) }

/-- What `terminal_switch` does to the thread that comes to the foreground. -/
def startTask (m : Machine) (next : Nat) : Machine :=
  if (m.threads next).state = .unused then
    { m with
      toProcesses := activateTask (schedFork m.toProcesses next) next, mem := vgaClear m.mem video }
  else if (m.threads next).state = .sleeping then
    { m with
      toProcesses := enqueueTask (m.modify next fun t => { t with state := .runnable }) next }
  else
    m

/-- `terminal_switch` up to the call of `switch_vidmap`: the terminal `h` goes to the
    background, `nextTerminal` of the thread `next` to the foreground. -/
def swapScreens (m : Machine) (h nextTerminal next : Nat) : Machine :=
  let t := m.terminals h
  let m := { m with mem := copyMem m.mem t.savedVidmem video vidmemSize }
  let m := m.setTerminal h { t with vidmem := t.savedVidmem, alt := false }
  let saved := (m.terminals nextTerminal).savedVidmem
  let m := { m with mem := copyMem m.mem video saved vidmemSize }
  let m := startTask m next
  let t := m.terminals nextTerminal
  let m := m.setTerminal nextTerminal { t with vidmem := video }
  vgaUpdateCursor m t.screenX.toNat t.screenY.toNat

/-- `terminal_switch(scancode, terminal, idx)` -/
def terminalSwitch (m : Machine) (scancode : Nat) (h idx : Nat) : Except Fault Machine :=
  if scancode = (m.consoles m.current).fkey.toNat then
    pure m
  else do
    let nextTerminal ← m.consoleTerminal idx
    let m := swapScreens m h nextTerminal (m.consoles idx).task
    let m ← switchVidmap m (m.consoles m.current).id idx
    return { m with current := idx }

/-! ## Key events -/

/-- The default case of `key_press`. -/
def typeKey (m : Machine) (scancode h : Nat) : Machine :=
  let t := m.terminals h
  let caps := t.capslock && isletter scancode
  inKey m scancode (if t.shift then !caps else caps) h

/-- The cases `F1`, `F2` and `F3` of `key_press`. -/
def switchKey (m : Machine) (scancode h idx : Nat) : Except Fault Machine :=
  if (m.terminals h).alt then terminalSwitch m scancode h idx else pure (typeKey m scancode h)

/-- `"391OS> "` -/
def prompt : List UInt8 := [51, 57, 49, 79, 83, 62, 32]

/-- Ctrl-L -/
def redraw (m : Machine) (h : Nat) : Except Fault Machine := do
  let m ← clear m
  let m ← prompt.foldlM putc m
  let t := m.terminals h
  (bufcpy t.buffer t.size.toNat t.bufhd).foldlM putc m

def keyPress (m : Machine) (scancode h : Nat) : Except Fault Machine :=
  let t := m.terminals h
  match scancode with
  | 0x3a => pure (m.setTerminal h { t with capslock := !t.capslock })
  | 0x2a | 0x36 => pure (m.setTerminal h { t with shift := true })
  -- `case LALT` has no `break`
  | 0x38 => pure (backspace (m.setTerminal h { t with alt := true }) h)
  | 0x0e => pure (backspace m h)
  | 0x1d => pure (m.setTerminal h { t with ctrl := true })
  -- neither has `case TAB`
  | 0x0f => switchKey (outTab m 4 h) scancode h 0
  | 0x1e => switchKey m scancode h 0
  | 0x1f => switchKey m scancode h 1
  | 0x20 => switchKey m scancode h 2
  | 0x26 => if t.ctrl then redraw m h else pure (typeKey m scancode h)
  | _ => pure (typeKey m scancode h)

def keyRelease (m : Machine) (scancode h : Nat) : Machine :=
  let t := m.terminals h
  match scancode with
  | 0x2a | 0x36 => m.setTerminal h { t with shift := false }
  | 0x1d => m.setTerminal h { t with ctrl := false }
  | 0x38 => m.setTerminal h { t with alt := false }
  | _ => m

/-- `do_keyboard` with the byte from the keyboard port. -/
def doKeyboard (m : Machine) (scancode : UInt8) : Except Fault Machine :=
  match m.foregroundTerminal with
  | none => throw .nullDeref
  | some h =>
    if scancode < 128 then
      keyPress m scancode.toNat h
    else
      pure (keyRelease m (scancode - 128).toNat h)

/-! ## Reading a line -/

/-- What `terminal_read` does before it waits: return a value, or wait on a terminal for at
    most `nbytes`. -/
inductive ReadStart where
  | returns (value : Int)
  | waits (terminal nbytes : Nat)
deriving DecidableEq, Repr

def readStart (m : Machine) (fd nbytes : Int) : ReadStart :=
  match m.foregroundTerminal with
  | none => .returns (-1)
  | some h =>
    if fd ≠ 0 then .returns (-1)
    else if nbytes < 0 then .returns (-1)
    else if nbytes = 0 then .returns 0
    else .waits h (min nbytes.toNat terbufSize)

/-- `terminal->exit = value` -/
def setExit (m : Machine) (h : Nat) (value : Bool) : Machine :=
  m.setTerminal h { m.terminals h with exit := value }

/-- One pass through the loop on terminal `h`: `nread` and the terminal with its flag. -/
def readScan (m : Machine) (h : Nat) : Machine × Nat :=
  let (nread, found) := (m.terminals h).scan
  (if found then setExit m h true else m, nread)

/-- The rest of `terminal_read` after the loop. -/
def readFinish (m : Machine) (h nread nbytes : Nat) : Machine × List UInt8 :=
  let (t, bytes) := (m.terminals h).consume nread nbytes
  (m.setTerminal h t, bytes)

/-- `terminal_read` without interrupts; `none` when no line is complete and it waits. -/
def terminalRead (m : Machine) (fd nbytes : Int) : Option (Machine × Int × List UInt8) :=
  match readStart m fd nbytes with
  | .returns value => some (m, value, [])
  | .waits h nbytes =>
    let (m, nread) := readScan (setExit m h false) h
    if (m.terminals h).exit then
      let (m, bytes) := readFinish m h nread nbytes
      some (m, bytes.length, bytes)
    else
      none

/-! ## `read`, with the bytes that it stores -/

/-- `vidmap_table` after `page_init`. -/
def vidmapInit (i : Nat) : Nat := if i = video / 4096 then userPte video else 0

/-- One pass through the loop of `console_init`.  `shells` are the threads that `__exec`
    created and `blocks` the addresses of the terminals. -/
def consoleCreate (m : Machine) (shells blocks : Nat → Nat) (i : Nat) : Machine :=
  let keys : List UInt32 := [0x1e, 0x1f, 0x20]
  let console : Console := ⟨i, keys.getD i 0, shells i, 0x8400000 + video + 4096 * i⟩
  let saved := videoBuf1 + i * 4096
  let t := { terminalCreate (m.terminals (blocks i)) with savedVidmem := saved, vidmem := saved }
  let k := m.modify (shells i) fun t =>
    { t with state := .unused, consoleId := i, terminal := some (blocks i) }
  { m with
    toProcesses := { k with consoles := update k.consoles i console }
    terminals := update m.terminals (blocks i) t
    mem := fun a => if saved ≤ a ∧ a < saved + 4096 then 0 else m.mem a }

/-- The part of `console_init` for consoles, terminals and the screen. -/
def consoleInit (m : Machine) (shells blocks : Nat → Nat) : Machine :=
  let m := (range 3).foldl (consoleCreate · shells blocks ·) m
  let k := m.modify (shells 0) fun t => { t with onRq := true, state := .runnable }
  let m := { m with toProcesses := { k with current := 0, running := shells 0 } }
  let t := m.terminals (blocks 0)
  { m.setTerminal (blocks 0) { t with vidmem := video } with terminalBoot := true }

end Illinix.Kernel
