import Illinix.Lib.Rows
import Illinix.Verified.Terminal.Screen
import Mathlib.Data.List.GetD

/-! # What the screen shows

The abstract screen is the text that was printed since it was cleared, broken into rows of 80
characters: the last 25 rows are shown, padded with blanks.  `_putc` adds one character to that
text, whether it writes a cell, goes to the next row or scrolls. -/

namespace Illinix.Verified.Terminal

open Kernel Lib Function List

variable {i vidmem y : Nat} {mem : VideoMem}

/-! ## The abstract screen -/

/-- A row ends here. -/
def breaksRow (c : UInt8) : Bool := c = newline ∨ c = carriageReturn

def textRows (text : List UInt8) : List (List UInt8) := rows numCols breaksRow text

/-- The last 25 rows. -/
def shownRows (text : List UInt8) : List (List UInt8) := (textRows text).rtake numRows

/-- The screen at `vidmem` shows these rows from its top, and blanks elsewhere. -/
structure Displays (mem : VideoMem) (vidmem : Nat) (shown : List (List UInt8)) : Prop where
  char : ∀ i < numRows, ∀ j < numCols,
    mem (vidmem + 2 * (numCols * i + j)) = (shown.getD i []).getD j blank
  attr : ∀ i < numRows * numCols, mem (vidmem + 2 * i + 1) = attrib

-- a full row is followed by an empty one, which the newline then ends
example : textRows (List.replicate 80 97 ++ [newline, 98]) = [List.replicate 80 97, [], [98]] := by
  decide

/-- The screen shows the text, and the cursor `(x, y)` is at its end. -/
structure Renders (mem : VideoMem) (vidmem x y : Nat) (text : List UInt8) : Prop where
  displays : Displays mem vidmem (shownRows text)
  row : y + 1 = (shownRows text).length
  column : x = ((textRows text).getLastD []).length

/-! ## Cells -/

theorem setCell_char (mem : VideoMem) (vidmem i : Nat) (c : UInt8) (k : Nat) :
    setCell mem vidmem i c (vidmem + 2 * k) = if k = i then c else mem (vidmem + 2 * k) := by
  unfold setCell
  rw [update_of_ne (by omega)]
  split
  · next here => rw [here, update_self]
  · rw [update_of_ne (by omega)]

theorem setCell_attr (mem : VideoMem) (vidmem i : Nat) (c : UInt8) (k : Nat) :
    setCell mem vidmem i c (vidmem + 2 * k + 1) = if k = i then attrib else mem (vidmem + 2 * k + 1) := by
  unfold setCell
  split
  · next here => rw [here, update_self]
  · rw [update_of_ne (by omega), update_of_ne (by omega)]

/-- A loop that stores one value for cell `k`, and nothing there for the others. -/
theorem foldl_store {store : VideoMem → Nat → VideoMem} {k addr : Nat} {c : UInt8}
    (stores : ∀ mem i, store mem i addr = if k = i then c else mem addr) (cells : List Nat) (mem : VideoMem) :
    cells.foldl store mem addr = if k ∈ cells then c else mem addr := by
  induction cells generalizing mem with
  | nil => simp
  | cons i cells ih =>
    rw [foldl_cons, ih, stores]
    by_cases later : k ∈ cells
    · rw [if_pos later, if_pos (mem_cons_of_mem _ later)]
    · simp [later]

/-- The rows move up; each cell is read before it is stored. -/
theorem foldl_shift_char (vidmem : Nat) (mem : VideoMem) (n k : Nat) :
    (List.range n).foldl (fun mem i => setCell mem vidmem i (mem (vidmem + 2 * (i + numCols)))) mem
        (vidmem + 2 * k) =
      if k < n then mem (vidmem + 2 * (k + numCols)) else mem (vidmem + 2 * k) := by
  induction n generalizing k with
  | zero => simp
  | succ n ih =>
    rw [range_succ, foldl_append, foldl_cons, foldl_nil, setCell_char, ih, ih]
    rcases Nat.lt_trichotomy k n with before | rfl | behind
    · rw [if_neg before.ne, if_pos before, if_pos (Nat.lt_succ_of_lt before)]
    · -- the cell below is still the old one
      rw [if_pos rfl, if_neg (by omega), if_pos (Nat.lt_succ_self k)]
    · rw [if_neg behind.ne', if_neg (by omega), if_neg (by omega)]

theorem vgaScrolling_char (mem : VideoMem) (vidmem : Nat) {j : Nat} (hi : i < numRows) (hj : j < numCols) :
    vgaScrolling mem vidmem (vidmem + 2 * (numCols * i + j)) =
      if i + 1 < numRows then mem (vidmem + 2 * (numCols * (i + 1) + j)) else blank := by
  have last : numCols * i + j ∈ range' (numCols * (numRows - 1)) numCols ↔
      ¬ i + 1 < numRows := by
    rw [mem_range'_1]
    unfold numCols numRows at *
    omega
  unfold vgaScrolling
  rw [foldl_store (fun mem i => setCell_char mem vidmem i blank _), foldl_shift_char]
  by_cases above : i + 1 < numRows
  · have moved : numCols * i + j < numCols * (numRows - 1) := by
      unfold numCols numRows at *
      omega
    have source : numCols * i + j + numCols = numCols * (i + 1) + j := by
      rw [Nat.mul_succ]
      omega
    rw [if_neg (mt last.mp (not_not.mpr above)), if_pos moved, if_pos above, source]
  · rw [if_pos (last.mpr above), if_neg above]

theorem vgaScrolling_attr (mem : VideoMem) (vidmem : Nat) (hi : i < numRows * numCols) :
    vgaScrolling mem vidmem (vidmem + 2 * i + 1) = attrib := by
  unfold vgaScrolling
  rw [foldl_store fun mem i => setCell_attr mem vidmem i _ _, foldl_store fun mem i => setCell_attr mem vidmem i _ _]
  by_cases last : i ∈ range' (numCols * (numRows - 1)) numCols
  · rw [if_pos last]
  · rw [if_neg last, if_pos]
    rw [mem_range'_1] at last
    rw [mem_range]
    unfold numCols numRows at *
    omega

/-! ## Rows -/

theorem getD_concat_self {α : Type} (xs : List α) (x d : α) : (xs ++ [x]).getD xs.length d = x := by
  simp

theorem getD_concat_of_lt {α : Type} {xs : List α} (behind : xs.length < i) (x d : α) :
    (xs ++ [x]).getD i d = d := by
  apply getD_eq_default
  rw [length_append, length_singleton]
  exact behind

section

variable {mem : VideoMem} {vidmem : Nat} {shown : List (List UInt8)}

/-- An empty row at the end is one of the blank ones. -/
theorem Displays.blankRow (displays : Displays mem vidmem shown) :
    Displays mem vidmem (shown ++ [[]]) where
  char i hi j hj := by
    rw [displays.char i hi j hj]
    rcases Nat.lt_trichotomy i shown.length with inside | rfl | behind
    · rw [getD_append _ _ _ _ inside]
    · rw [getD_concat_self, getD_eq_default _ _ le_rfl]
    · rw [getD_eq_default _ _ behind.le, getD_concat_of_lt behind]
  attr := displays.attr

theorem Displays.scroll (displays : Displays mem vidmem shown) (fits : shown.length ≤ numRows) :
    Displays (vgaScrolling mem vidmem) vidmem shown.tail where
  char i hi j hj := by
    rw [vgaScrolling_char mem vidmem hi hj]
    have next : shown.tail.getD i [] = shown.getD (i + 1) [] := by
      rw [getD_eq_getElem?_getD, getD_eq_getElem?_getD, getElem?_tail]
    rw [next]
    split
    · next inside => rw [displays.char (i + 1) inside j hj]
    · next last =>
      rw [getD_eq_default shown [] (by omega)]
      rfl
  attr i hi := vgaScrolling_attr mem vidmem hi

theorem Displays.write {done : List (List UInt8)} {last : List UInt8}
    (displays : Displays mem vidmem (done ++ [last])) (below : done.length < numRows)
    (room : last.length < numCols) (c : UInt8) :
    Displays (vgaWrite mem vidmem last.length.toUInt8 done.length.toUInt8 c) vidmem
      (done ++ [last ++ [c]]) := by
  unfold vgaWrite
  rw [toUInt8_toNat room (by decide), toUInt8_toNat below (by decide)]
  constructor
  · intro i hi j hj
    have here : numCols * i + j = numCols * done.length + last.length ↔
        i = done.length ∧ j = last.length := by
      unfold numCols at *
      omega
    rw [setCell_char, displays.char i hi j hj]
    rcases Nat.lt_trichotomy i done.length with above | rfl | behind
    · rw [if_neg (by omega), getD_append _ _ _ _ above, getD_append _ _ _ _ above]
    · rw [getD_concat_self, getD_concat_self]
      rcases Nat.lt_trichotomy j last.length with before | rfl | after
      · rw [if_neg (by omega), getD_append _ _ _ _ before]
      · rw [if_pos rfl, getD_concat_self]
      · rw [if_neg (by omega), getD_eq_default _ _ after.le, getD_concat_of_lt after]
    · rw [if_neg (by omega), getD_concat_of_lt behind, getD_concat_of_lt behind]
  · intro i hi
    rw [setCell_attr, displays.attr i hi, ite_self]

end

/-! ## Characters -/

/-- The cursor goes to a new row. -/
def nextRow (mem : VideoMem) (vidmem y : Nat) : VideoMem × Nat × Nat :=
  if y + 1 = numRows then (vgaScrolling mem vidmem, 0, y) else (mem, 0, y + 1)

theorem emit_eq (mem : VideoMem) (vidmem : Nat) {x : Nat} (hx : x < numCols) (y : Nat) (c : UInt8) :
    emit mem vidmem x y c = if breaksRow c then
        nextRow mem vidmem y
      else if x + 1 = numCols then
        nextRow (vgaWrite mem vidmem x.toUInt8 y.toUInt8 c) vidmem y
      else
        (vgaWrite mem vidmem x.toUInt8 y.toUInt8 c, x + 1, y) := by
  unfold emit breaksRow nextRow
  simp only [decide_eq_true_eq]
  split
  · rfl
  · by_cases full : x + 1 = numCols
    · have wrapped : (x + 1) % numCols = 0 := by rw [full, Nat.mod_self]
      rw [if_pos wrapped, if_pos full, wrapped]
      split_ifs <;> first | rfl | contradiction
    · have inside : (x + 1) % numCols = x + 1 := Nat.mod_eq_of_lt (by omega)
      rw [inside, if_neg (Nat.succ_ne_zero x), if_neg full]

/-- The rows on the screen when the text has one row more. -/
theorem Displays.nextRow {all : List (List UInt8)}
    (displays : Displays mem vidmem (all.rtake numRows)) (row : y + 1 = (all.rtake numRows).length) :
    Displays (nextRow mem vidmem y).1 vidmem ((all ++ [[]]).rtake numRows) ∧
    (nextRow mem vidmem y).2.1 = 0 ∧
    (nextRow mem vidmem y).2.2 + 1 = ((all ++ [[]]).rtake numRows).length := by
  have length := length_rtake all numRows
  unfold Terminal.nextRow
  by_cases last : y + 1 = numRows
  · have moved : (all ++ [[]]).rtake numRows = (all.rtake numRows).tail ++ [[]] :=
      rtake_concat_of_le (n := 24) (by unfold numRows at *; omega) []
    rw [if_pos last, moved]
    refine ⟨(displays.scroll (by omega)).blankRow, rfl, ?_⟩
    rw [length_append, length_tail, length_singleton, ← row]
    rfl
  · have grown : (all ++ [[]]).rtake numRows = all.rtake numRows ++ [[]] :=
      rtake_concat_of_lt (n := 24) (by unfold numRows at *; omega) []
    rw [if_neg last, grown]
    refine ⟨displays.blankRow, rfl, ?_⟩
    rw [length_append, length_singleton, ← row]

theorem Displays.renders_nextRow {text : List UInt8}
    {all : List (List UInt8)} (displays : Displays mem vidmem (all.rtake numRows))
    (row : y + 1 = (all.rtake numRows).length) (broken : textRows text = all ++ [[]]) :
    Renders (Terminal.nextRow mem vidmem y).1 vidmem (Terminal.nextRow mem vidmem y).2.1
      (Terminal.nextRow mem vidmem y).2.2 text := by
  obtain ⟨shown, column, row⟩ := displays.nextRow row
  constructor
  · rw [shownRows, broken]
    exact shown
  · rw [shownRows, broken]
    exact row
  · rw [broken, getLastD_concat]
    exact column

theorem Renders.emit {x : Nat} {text : List UInt8} (renders : Renders mem vidmem x y text) (c : UInt8) :
    Renders (emit mem vidmem x y c).1 vidmem (emit mem vidmem x y c).2.1
      (emit mem vidmem x y c).2.2 (text ++ [c]) := by
  have width : 0 < numCols := by decide
  obtain ⟨displays, row, rfl⟩ := renders
  obtain ⟨done, last, all, room⟩ := exists_rows_eq breaksRow width text
  change textRows text = done ++ [last] at all
  rw [all, getLastD_concat, emit_eq mem vidmem room]
  cases breaks : breaksRow c with
  | true =>
    rw [if_pos rfl]
    exact displays.renders_nextRow row (rows_concat_of_breaks text breaks)
  | false =>
    rw [if_neg Bool.false_ne_true]
    -- the row of the cursor, below the rows that are complete
    have window : ∀ r, (done ++ [r]).rtake numRows = done.rtake 24 ++ [r] :=
      fun r => rtake_concat_succ done 24 r
    rw [shownRows, all, window] at displays row
    rw [length_append, length_singleton, Nat.succ_inj] at row
    subst y
    have below : (done.rtake 24).length < numRows := by
      rw [length_rtake]
      exact Nat.lt_succ_of_le (Nat.min_le_left 24 _)
    have written := displays.write below room c
    have concat : textRows (text ++ [c]) = _ := rows_concat_of_not width all breaks
    by_cases full : last.length + 1 = numCols
    · rw [if_pos full] at concat
      rw [if_pos full]
      rw [← window] at written
      apply written.renders_nextRow
      · rw [window, length_append, length_singleton]
      · rw [concat, append_assoc]
        rfl
    · rw [if_neg full] at concat
      rw [if_neg full]
      constructor
      · rw [shownRows, concat, window]
        exact written
      · rw [shownRows, concat, window, length_append, length_singleton]
      · rw [concat, getLastD_concat, length_append, length_singleton]

/-! ## `_putc`

Before `terminal_boot` is set the screen is the VGA memory with the cursor `screen_x`,
`screen_y`, afterwards it is that of the terminal. -/

def vidmemOf (m : Machine) (h : Nat) : Nat :=
  if m.terminalBoot then (m.terminals h).vidmem else video

def cursorOf (m : Machine) (h : Nat) : Nat × Nat :=
  if m.terminalBoot then ((m.terminals h).screenX.toNat, (m.terminals h).screenY.toNat)
  else (m.screenX, m.screenY)

/-- `_putc` moves the cursor of the VGA for this terminal. -/
def OnDisplay (m : Machine) (h : Nat) : Prop :=
  m.terminalBoot = false ∨ m.foregroundTerminal = some h

/-- `_putc(c, terminal)` for each byte of the text. -/
def outputTo (m : Machine) (h : Nat) (text : List UInt8) : Machine :=
  text.foldl (fun m c => putcTo m c h) m

section

variable {m : Machine} {h : Nat}

/-- `m'` is `m` after a character that left memory and cursor as in `out`. -/
structure Emitted (m m' : Machine) (h : Nat) (out : VideoMem × Nat × Nat) : Prop where
  mem : m'.mem = out.1
  cursor : cursorOf m' h = out.2
  vidmem : vidmemOf m' h = vidmemOf m h
  display : OnDisplay m' h ↔ OnDisplay m h
  register : OnDisplay m h → m'.cursor = (out.2.2 % 2 ^ 8 * numCols + out.2.1 % 2 ^ 8) % 2 ^ 16

theorem putcTo_emitted (c : UInt8) (row : (cursorOf m h).2 < numRows) :
    Emitted m (putcTo m c h) h (emit m.mem (vidmemOf m h) (cursorOf m h).1 (cursorOf m h).2 c) := by
  obtain ⟨newX, newY⟩ := emit_cursor m.mem (vidmemOf m h) (x := (cursorOf m h).1) c row
  cases boot : m.terminalBoot with
  | true =>
    have screen : vidmemOf m h = (m.terminals h).vidmem := if_pos boot
    have cursor : cursorOf m h = ((m.terminals h).screenX.toNat, (m.terminals h).screenY.toNat) := if_pos boot
    unfold putcTo
    rw [if_pos boot]
    rw [screen, cursor] at newX newY ⊢
    simp only
    generalize emit m.mem (m.terminals h).vidmem (m.terminals h).screenX.toNat
      (m.terminals h).screenY.toNat c = out at newX newY ⊢
    obtain ⟨mem, x, y⟩ := out
    have exactX : x.toUInt8.toNat = x := toUInt8_toNat newX (by decide)
    have exactY : y.toUInt8.toNat = y := toUInt8_toNat newY (by decide)
    split
    · next shown =>
      constructor
      · rfl
      · simp [cursorOf, vgaUpdateCursor, boot, exactX, exactY]
      · simp [vidmemOf, vgaUpdateCursor, boot]
      · exact Iff.rfl
      · exact fun _ => rfl
    · next hidden =>
      constructor
      · rfl
      · simp [cursorOf, boot, exactX, exactY]
      · simp [vidmemOf, boot]
      · exact Iff.rfl
      · rintro (booting | shown)
        · rw [boot] at booting
          contradiction
        · exact absurd shown hidden
  | false =>
    have off : ¬ m.terminalBoot = true := by
      rw [boot]
      exact Bool.false_ne_true
    have screen : vidmemOf m h = video := if_neg off
    have cursor : cursorOf m h = (m.screenX, m.screenY) := if_neg off
    unfold putcTo
    rw [screen, cursor, if_neg off]
    constructor
    · rfl
    · exact if_neg off
    · exact (if_neg off).trans screen.symm
    · exact Iff.rfl
    · exact fun _ => rfl

theorem outputTo_concat (m : Machine) (h : Nat) (text : List UInt8) (c : UInt8) :
    outputTo m h (text ++ [c]) = putcTo (outputTo m h text) c h := by
  unfold outputTo
  rw [foldl_append]
  rfl

theorem Renders.cursor {mem : VideoMem} {vidmem x y : Nat} {text : List UInt8}
    (renders : Renders mem vidmem x y text) : x < numCols ∧ y < numRows := by
  obtain ⟨done, last, all, room⟩ := exists_rows_eq breaksRow (by decide : 0 < numCols) text
  change textRows text = done ++ [last] at all
  have shown := length_rtake (textRows text) numRows
  have row : y + 1 = ((textRows text).rtake numRows).length := renders.row
  constructor
  · rw [renders.column, all, getLastD_concat]
    exact room
  · omega

/-- What holds of the machine after the text. -/
structure Printed (m m' : Machine) (h : Nat) (text : List UInt8) : Prop where
  renders : Renders m'.mem (vidmemOf m h) (cursorOf m' h).1 (cursorOf m' h).2 text
  inside : OnScreen (vidmemOf m h) m.mem m'.mem
  vidmem : vidmemOf m' h = vidmemOf m h
  display : OnDisplay m' h ↔ OnDisplay m h
  register : text ≠ [] → OnDisplay m h →
    m'.cursor = (cursorOf m' h).2 * numCols + (cursorOf m' h).1

theorem Printed.putc {m' : Machine} {text : List UInt8} (printed : Printed m m' h text) (c : UInt8) :
    Printed m (putcTo m' c h) h (text ++ [c]) := by
  obtain ⟨column, row⟩ := printed.renders.cursor
  have emitted := putcTo_emitted c row
  have renders := printed.renders.emit c
  rw [printed.vidmem] at emitted
  constructor
  · rw [emitted.mem, emitted.cursor]
    exact renders
  · rw [emitted.mem]
    exact printed.inside.trans (emit_onScreen _ _ c column row)
  · exact emitted.vidmem.trans printed.vidmem
  · exact emitted.display.trans printed.display
  · intro _ display
    obtain ⟨newX, newY⟩ := renders.cursor
    rw [emitted.register (printed.display.mpr display), emitted.cursor]
    unfold numCols numRows at *
    simp (disch := omega) only [Nat.mod_eq_of_lt]

/-- After any text the screen shows its last rows, in both modes of `_putc`. -/
theorem printed_outputTo (cleared : Displays m.mem (vidmemOf m h) [])
    (home : cursorOf m h = (0, 0)) (text : List UInt8) : Printed m (outputTo m h text) h text := by
  induction text using reverseRecOn with
  | nil =>
    constructor
    · change Renders m.mem _ (cursorOf m h).1 (cursorOf m h).2 _
      rw [home]
      exact ⟨cleared.blankRow, rfl, rfl⟩
    · exact fun _ _ => rfl
    · rfl
    · exact Iff.rfl
    · exact fun nothing => absurd rfl nothing
  | append_singleton text c ih =>
    rw [outputTo_concat]
    exact ih.putc c

end

/-- From a cleared screen with the cursor at the origin, the bytes of a text given to `_putc` leave
    the last 25 rows of it on the screen, padded with blanks, in the standard attribute, and the
    cursor behind its last character; nothing outside of the 80x25 cells is stored. -/
theorem screen_shows_text {m : Machine} {h : Nat} (cleared : Displays m.mem (vidmemOf m h) [])
    (home : cursorOf m h = (0, 0)) (text : List UInt8) :
    let m' := outputTo m h text
    (∀ i < numRows, ∀ j < numCols,
      m'.mem (vidmemOf m h + 2 * (numCols * i + j)) = ((shownRows text).getD i []).getD j blank) ∧
    (∀ i < numRows * numCols, m'.mem (vidmemOf m h + 2 * i + 1) = attrib) ∧
    ((cursorOf m' h).2 + 1 = (shownRows text).length ∧
      (cursorOf m' h).1 = ((textRows text).getLastD []).length) ∧
    ((cursorOf m' h).1 < numCols ∧ (cursorOf m' h).2 < numRows) ∧
    (text ≠ [] → OnDisplay m h → m'.cursor = (cursorOf m' h).2 * numCols + (cursorOf m' h).1) ∧
    OnScreen (vidmemOf m h) m.mem m'.mem := by
  intro m'
  have printed := printed_outputTo cleared home text
  exact ⟨printed.renders.displays.char, printed.renders.displays.attr,
    ⟨printed.renders.row, printed.renders.column⟩, printed.renders.cursor, printed.register,
    printed.inside⟩

theorem vgaClear_displays (mem : VideoMem) (vidmem : Nat) :
    Displays (vgaClear mem vidmem) vidmem [] where
  char i hi j hj := by
    apply (vgaClear_blank mem vidmem _).1
    unfold numCols numRows at *
    omega
  attr i hi := (vgaClear_blank mem vidmem hi).2

def clearedMachine : Machine :=
  { blankMachine with mem := vgaClear blankMachine.mem blankTerminal.vidmem }

/-- `"hi"` on a cleared screen. -/
theorem screen_shows_hi :
    Displays clearedMachine.mem (vidmemOf clearedMachine 0) [] ∧ cursorOf clearedMachine 0 = (0, 0) ∧
    let m' := outputTo clearedMachine 0 [104, 105]
    m'.mem (vidmemOf clearedMachine 0 + 2) = 105 ∧ (cursorOf m' 0).1 = 2 := by
  have screen : vidmemOf clearedMachine 0 = blankTerminal.vidmem := rfl
  have mem : clearedMachine.mem = vgaClear blankMachine.mem blankTerminal.vidmem := by
    simp only [clearedMachine]
  have cleared : Displays clearedMachine.mem (vidmemOf clearedMachine 0) [] := by
    rw [screen, mem]
    exact vgaClear_displays blankMachine.mem blankTerminal.vidmem
  have shows := screen_shows_text cleared rfl [104, 105]
  refine ⟨cleared, rfl, ?_, ?_⟩
  · exact (shows.1 0 (by decide) 1 (by decide)).trans (by decide)
  · exact shows.2.2.1.2.trans (by decide)

end Illinix.Verified.Terminal
