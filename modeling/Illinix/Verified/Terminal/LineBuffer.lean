import Illinix.Verified.Terminal.Basic
import Illinix.Lib.Circular
import Illinix.Lib.Run

/-! # The line buffer is a queue

Head, tail, size and cells of a terminal represent the list `line` of the characters typed
and not yet read.  `in` appends to it and drops the oldest character when it is full,
`backspace` drops the newest, and `terminal_read` takes a prefix that ends at the first
newline or earlier. -/

namespace Illinix.Verified.Terminal

open Kernel Lib Function List

variable {h : ℕ} {m m' : Machine} {t : Terminal}

/-- The characters in the buffer, oldest first. -/
def line (t : Terminal) : List UInt8 := Circular.contents t.buffer t.bufhd t.size.toNat

structure RingOk (t : Terminal) : Prop where
  bound : t.size.toNat ≤ terbufSize
  tail : (t.buftl : ℕ) = (t.bufhd + t.size.toNat) % terbufSize

@[simp] theorem length_line (t : Terminal) : (line t).length = t.size.toNat := Circular.length_contents ..

theorem RingOk.buftl_eq (ok : RingOk t) : t.buftl = Circular.index t.bufhd t.size.toNat := Fin.ext ok.tail

/-! ## Operations on one terminal -/

/-- Appends to a queue of at most `TERBUF_SIZE` characters. -/
def pushChar (q : List UInt8) (c : UInt8) : List UInt8 :=
  if q.length = terbufSize then q.tail ++ [c] else q ++ [c]

theorem insert_of_full (full : t.full = true) (c : UInt8) : t.insert c = { t with
        bufhd := Circular.index t.bufhd 1
        buffer := update t.buffer t.buftl c
        buftl := Circular.index t.buftl 1 } := by
  unfold Terminal.insert
  rw [if_pos full]
  exact if_pos full

theorem insert_of_not_full (room : ¬ t.full = true) (c : UInt8) : t.insert c = { t with
        buffer := update t.buffer t.buftl c
        buftl := Circular.index t.buftl 1
        size := t.size + 1 } := by
  unfold Terminal.insert
  rw [if_neg room]
  exact if_neg room

theorem RingOk.insert (ok : RingOk t) (c : UInt8) :
    RingOk (t.insert c) ∧ line (t.insert c) = pushChar (line t) c := by
  by_cases full : t.full = true
  · have size : t.size.toNat = terbufSize := of_decide_eq_true full
    -- the tail has come round to the head
    have round : t.buftl = t.bufhd := by
      rw [ok.buftl_eq, size]
      exact (Circular.index_wrap t.bufhd 0).trans (Circular.index_zero _)
    rw [insert_of_full full]
    constructor
    · constructor
      · exact ok.bound
      · simp only [round, Circular.index, Fin.val_ofNat, size]
        rw [Nat.add_mod_right, Nat.mod_mod]
    · unfold line pushChar
      simp only [size, round]
      exact Circular.contents_push_full ..
  · have size : ¬ t.size.toNat = terbufSize := fun same => full (decide_eq_true same)
    have room : t.size.toNat < terbufSize := Nat.lt_of_le_of_ne ok.bound size
    have grown : (t.size + 1).toNat = t.size.toNat + 1 := by
      rw [UInt8.toNat_add, Nat.mod_eq_of_lt]
      · rfl
      · exact Nat.lt_of_lt_of_le (Nat.add_lt_add_right room 1) (by decide)
    rw [insert_of_not_full full]
    constructor
    · constructor
      · simp only [grown]
        exact room
      · simp only [ok.buftl_eq, Circular.index_index, grown]
        rfl
    · unfold line pushChar
      rw [Circular.length_contents, if_neg size]
      simp only [grown, ok.buftl_eq]
      exact Circular.contents_push _ _ room _

theorem RingOk.erase (ok : RingOk t) (some : t.size ≠ 0) :
    RingOk t.erase ∧ line t.erase = (line t).dropLast := by
  have bound := ok.bound
  have tail := ok.tail
  have positive : 1 ≤ t.size.toNat := by
    rw [Nat.one_le_iff_ne_zero]
    exact fun zero => some (UInt8.toNat_inj.mp zero)
  have shrunk : (t.size - 1).toNat = t.size.toNat - 1 := UInt8.toNat_sub_of_le _ _ positive
  have size : t.erase.size = t.size - 1 := by
    unfold Terminal.erase
    split <;> rfl
  have head : t.erase.bufhd = t.bufhd := by
    unfold Terminal.erase
    split <;> rfl
  have cells : t.erase.buffer = t.buffer := by
    unfold Terminal.erase
    split <;> rfl
  constructor
  · constructor
    · rw [size, shrunk]
      omega
    · rw [size, head, shrunk]
      unfold Terminal.erase
      -- one step back from the tail, round the end of the buffer at 0
      split
      · next zero =>
        change (terbufSize - 1) % terbufSize = _
        unfold terbufSize at *
        omega
      · next back =>
        change (t.buftl - 1) % terbufSize = _
        unfold terbufSize at *
        omega
  · unfold line
    rw [size, head, cells, shrunk]
    rw [dropLast_eq_take, Circular.length_contents, Circular.take_contents _ _ (Nat.sub_le _ _)]

theorem bufcpy_eq (buffer : Fin terbufSize → UInt8) (n : ℕ) (i : Fin terbufSize) :
    bufcpy buffer n i = Circular.contents buffer i n := by
  induction n generalizing i with
  | zero => rfl
  | succ n ih =>
    rw [Circular.contents_succ, bufcpy, ih]
    rfl

theorem scanLoop_eq (t : Terminal) (remaining nread : ℕ) (start : Fin terbufSize)
    (plain : carriageReturn ∉ Circular.contents t.buffer start remaining) :
    scanLoop t remaining nread start = if newline ∈ Circular.contents t.buffer start remaining then
        (nread + (Circular.contents t.buffer start remaining).idxOf newline + 1, true)
      else
        (nread + remaining, false) := by
  induction remaining generalizing nread start with
  | zero => rfl
  | succ remaining ih =>
    rw [Circular.contents_succ, mem_cons, not_or] at plain
    rw [Circular.contents_succ, scanLoop]
    by_cases found : t.buffer start = newline
    · rw [if_pos (Or.inl found), found, if_pos mem_cons_self, idxOf_cons_self]
    · rw [if_neg (not_or.mpr ⟨found, fun same => plain.1 same.symm⟩)]
      refine (ih (nread + 1) _ plain.2).trans ?_
      rw [idxOf_cons_ne _ found]
      simp only [mem_cons, Ne.symm found, false_or]
      split
      · congr 1
        omega
      · congr 1
        omega

theorem scan_eq (plain : carriageReturn ∉ line t) : t.scan =
      if newline ∈ line t then ((line t).idxOf newline + 1, true) else (t.size.toNat, false) := by
  refine (scanLoop_eq t _ 0 _ plain).trans ?_
  rw [Nat.zero_add, Nat.zero_add]
  rfl

theorem RingOk.consume (ok : RingOk t) {nread nbytes : ℕ} (enough : min nbytes nread ≤ t.size.toNat) :
    RingOk (t.consume nread nbytes).1 ∧
    line (t.consume nread nbytes).1 = (line t).drop (min nbytes nread) ∧
    (t.consume nread nbytes).2 = (line t).take (min nbytes nread) := by
  have bound := ok.bound
  have tail := ok.tail
  have count : (if nbytes < nread then nbytes else nread) = min nbytes nread := by
    split <;> omega
  have small : min nbytes nread < 2 ^ 8 := Nat.lt_of_le_of_lt (Nat.le_trans enough bound) (by decide)
  have word : (min nbytes nread).toUInt8.toNat = min nbytes nread := by
    exact Nat.mod_eq_of_lt small
  have size : (t.size - (min nbytes nread).toUInt8).toNat = t.size.toNat - min nbytes nread := by
    rw [UInt8.toNat_sub_of_le _ _ (by rw [UInt8.le_iff_toNat_le, word]; exact enough), word]
  obtain ⟨rest, split⟩ := Nat.exists_eq_add_of_le enough
  simp only [Terminal.consume, count]
  refine ⟨⟨?_, ?_⟩, ?_, ?_⟩
  · rw [size]
    omega
  · simp only [size, Fin.val_ofNat, tail, Nat.mod_add_mod]
    congr 1
    omega
  · unfold line
    simp only [size]
    rw [split, Nat.add_sub_cancel_left]
    exact (Circular.drop_contents ..).symm
  · rw [bufcpy_eq]
    exact (Circular.take_contents _ _ enough).symm

/-! ## The terminals of the machine -/

/-- The fields that make up the line buffer. -/
def ring (t : Terminal) : Fin terbufSize × Fin terbufSize × UInt8 × (Fin terbufSize → UInt8) :=
  (t.bufhd, t.buftl, t.size, t.buffer)

theorem line_congr {t' : Terminal} (same : ring t = ring t') : line t = line t' := by
  simp only [ring, Prod.mk.injEq] at same
  obtain ⟨head, -, size, cells⟩ := same
  unfold line
  rw [head, size, cells]

theorem ringOk_congr {t' : Terminal} (same : ring t = ring t') (ok : RingOk t) : RingOk t' := by
  simp only [ring, Prod.mk.injEq] at same
  obtain ⟨head, tail, size, -⟩ := same
  constructor
  · rw [← size]
    exact ok.bound
  · rw [← size, ← head, ← tail]
    exact ok.tail

theorem setExit_ring (m : Machine) (h : ℕ) (value : Bool) (h' : ℕ) :
    ring ((setExit m h value).terminals h') = ring (m.terminals h') := by
  unfold setExit
  exact setTerminal_field ring (by rfl) h'

/-- The queues of all terminals. -/
def lines (m : Machine) (h : ℕ) : List UInt8 := line (m.terminals h)

/-- Every buffer is well formed, and no carriage return has been stored. -/
def LinesOk (m : Machine) : Prop :=
  ∀ h, RingOk (m.terminals h) ∧ carriageReturn ∉ lines m h

theorem lines_setTerminal (m : Machine) (h : ℕ) (t : Terminal) :
    lines (m.setTerminal h t) = update (lines m) h (line t) := by
  funext h'
  unfold lines
  rcases eq_or_ne h' h with rfl | other
  · rw [setTerminal_self, update_self]
  · rw [setTerminal_of_ne other, update_of_ne other]

theorem LinesOk.setTerminal (ok : LinesOk m) (ring : RingOk t)
    (plain : carriageReturn ∉ line t) : LinesOk (m.setTerminal h t) := by
  intro h'
  rw [lines_setTerminal]
  rcases eq_or_ne h' h with rfl | other
  · rw [setTerminal_self, update_self]
    exact ⟨ring, plain⟩
  · rw [setTerminal_of_ne other, update_of_ne other]
    exact ok h'

theorem LinesOk.congr (ok : LinesOk m)
    (same : ∀ h, ring (m'.terminals h) = ring (m.terminals h)) : LinesOk m' := by
  intro h
  have lineEq : lines m' h = lines m h := line_congr (same h)
  rw [lineEq]
  exact ⟨ringOk_congr (same h).symm (ok h).1, (ok h).2⟩

theorem keyChar_ne_carriageReturn (scancode : ℕ) (caps : Bool) :
    keyChar scancode caps ≠ carriageReturn := by
  have mapped : ∀ c : UInt8, (if c = carriageReturn then newline else c) ≠ carriageReturn := by
    intro c
    split
    · decide
    · next other => exact other
  unfold keyChar
  split
  · decide
  · exact mapped _

/-! ## Key events -/

/-- Characters stored by `in` and calls of `backspace`, on any terminal. -/
inductive KeyEvent where
  | type (scancode : ℕ) (caps : Bool) (h : ℕ)
  | backspace (h : ℕ)

def keyExec (m : Machine) : KeyEvent → Machine
  | .type scancode caps h => inKey m scancode caps h
  | .backspace h => backspace m h

/-- The same events on queues of characters. -/
def keyQueue (q : ℕ → List UInt8) : KeyEvent → ℕ → List UInt8
  | .type scancode caps h =>
    if keyChar scancode caps = 0 then q
    else update q h (pushChar (q h) (keyChar scancode caps))
  | .backspace h => update q h (q h).dropLast

/-- Every buffer is well formed. -/
def RingsOk (m : Machine) : Prop := ∀ h, RingOk (m.terminals h)

theorem RingsOk.congr (ok : RingsOk m)
    (same : ∀ h, ring (m'.terminals h) = ring (m.terminals h)) : RingsOk m' :=
  fun h => ringOk_congr (same h).symm (ok h)

theorem RingsOk.setTerminal (ok : RingsOk m) (ring : RingOk t) : RingsOk (m.setTerminal h t) := by
  intro h'
  rcases eq_or_ne h' h with rfl | other
  · rw [setTerminal_self]
    exact ring
  · rw [setTerminal_of_ne other]
    exact ok h'

theorem RingsOk.inKey (ok : RingsOk m) (scancode : ℕ) (caps : Bool) (h : ℕ) :
    RingsOk (inKey m scancode caps h) ∧
    lines (inKey m scancode caps h) = keyQueue (lines m) (.type scancode caps h) := by
  unfold Kernel.inKey keyQueue
  by_cases none : keyChar scancode caps = 0
  · simp only [none, if_true]
    exact ⟨ok, trivial⟩
  · simp only [none, if_false]
    have same := (putcTo_drawn m (keyChar scancode caps) h).field ring fun _ _ _ => rfl
    have printed : RingsOk (putcTo m (keyChar scancode caps) h) := ok.congr same
    have lineEq : lines (putcTo m (keyChar scancode caps) h) = lines m :=
      funext fun h' => line_congr (same h')
    obtain ⟨ringOk, pushed⟩ := (printed h).insert (keyChar scancode caps)
    refine ⟨printed.setTerminal ringOk, ?_⟩
    rw [lines_setTerminal, pushed, lineEq, ← lineEq]
    rfl

theorem RingsOk.backspace (ok : RingsOk m) (h : ℕ) :
    RingsOk (backspace m h) ∧ lines (backspace m h) = keyQueue (lines m) (.backspace h) := by
  simp only [Kernel.backspace, keyQueue]
  split
  · next zero =>
    have empty : lines m h = [] := by
      apply eq_nil_of_length_eq_zero
      unfold lines
      rw [length_line, zero]
      rfl
    rw [empty]
    exact ⟨ok, (update_eq_self_iff.mpr empty.symm).symm⟩
  · next some =>
    have same := (back_drawn m h).field ring fun _ _ _ => rfl
    have moved : RingsOk (back m h) := ok.congr same
    have lineEq : lines (back m h) = lines m := funext fun h' => line_congr (same h')
    have sizeEq : ((back m h).terminals h).size = (m.terminals h).size := congrArg (fun r => r.2.2.1) (same h)
    obtain ⟨ringOk, erased⟩ := (moved h).erase (sizeEq ▸ some)
    refine ⟨moved.setTerminal ringOk, ?_⟩
    rw [lines_setTerminal, erased, lineEq, ← lineEq]
    rfl

/-- Key events store no carriage return. -/
theorem keyQueue_plain {q : ℕ → List UInt8} (plain : ∀ h, carriageReturn ∉ q h) (e : KeyEvent) (h : ℕ) :
    carriageReturn ∉ keyQueue q e h := by
  cases e with
  | type scancode caps h' =>
    simp only [keyQueue]
    split
    · exact plain h
    · rcases eq_or_ne h h' with rfl | other
      · rw [update_self]
        have stored := (keyChar_ne_carriageReturn scancode caps).symm
        unfold pushChar
        split
        · simp only [mem_append, mem_singleton, not_or]
          exact ⟨fun mem => plain h (mem_of_mem_tail mem), stored⟩
        · simp only [mem_append, mem_singleton, not_or]
          exact ⟨plain h, stored⟩
      · rw [update_of_ne other]
        exact plain h
  | backspace h' =>
    simp only [keyQueue]
    rcases eq_or_ne h h' with rfl | other
    · rw [update_self]
      exact fun mem => plain h (dropLast_subset _ mem)
    · rw [update_of_ne other]
      exact plain h

theorem RingsOk.keyExec (ok : RingsOk m) (e : KeyEvent) :
    RingsOk (keyExec m e) ∧ lines (keyExec m e) = keyQueue (lines m) e := by
  cases e with
  | type scancode caps h => exact ok.inKey scancode caps h
  | backspace h => exact ok.backspace h

theorem LinesOk.keyExec (ok : LinesOk m) (e : KeyEvent) :
    LinesOk (keyExec m e) ∧ lines (keyExec m e) = keyQueue (lines m) e := by
  have rings : RingsOk m := fun h => (ok h).1
  obtain ⟨next, text⟩ := rings.keyExec e
  refine ⟨fun h => ⟨next h, ?_⟩, text⟩
  rw [text]
  exact keyQueue_plain (fun h => (ok h).2) e h

/-! ## Reading -/

/-- How many characters `terminal_read` takes from a queue with a newline. -/
def lineCount (q : List UInt8) (nbytes : ℤ) : ℕ :=
  min nbytes.toNat (min terbufSize (q.idxOf newline + 1))

theorem LinesOk.terminalRead (ok : LinesOk m) {nbytes : ℤ}
    (reader : m.foregroundTerminal = some h) (positive : 1 ≤ nbytes) (typed : newline ∈ lines m h) :
    ∃ m', terminalRead m 0 nbytes =
        some (m', ((lineCount (lines m h) nbytes : ℕ) : ℤ),
          (lines m h).take (lineCount (lines m h) nbytes)) ∧
      LinesOk m' ∧
      lines m' =
        update (lines m) h ((lines m h).drop (lineCount (lines m h) nbytes)) := by
  have start : readStart m 0 nbytes = .waits h (min nbytes.toNat terbufSize) := by
    unfold readStart
    simp only [reader]
    rw [if_neg (by simp), if_neg (by omega), if_neg (by omega)]
  -- the flag is no part of the queue
  have same := setExit_ring m h false
  have cleared : LinesOk (setExit m h false) := ok.congr same
  have lineEq : lines (setExit m h false) = lines m := funext fun h' => line_congr (same h')
  have found : ((setExit m h false).terminals h).scan = ((lines m h).idxOf newline + 1, true) := by
    rw [← lineEq] at typed ⊢
    exact (scan_eq (cleared h).2).trans (if_pos typed)
  let m1 := setExit (setExit m h false) h true
  have scanned : readScan (setExit m h false) h = (m1, (lines m h).idxOf newline + 1) := by
    unfold readScan
    rw [found]
    rfl
  have same1 : ∀ h', ring (m1.terminals h') = ring (m.terminals h') :=
    fun h' => (setExit_ring _ h true h').trans (same h')
  have ok1 : LinesOk m1 := ok.congr same1
  have lineEq1 : lines m1 = lines m := funext fun h' => line_congr (same1 h')
  have exit : (m1.terminals h).exit = true := by
    simp [m1, setExit, Machine.setTerminal]
  have count : min (min nbytes.toNat terbufSize) ((lines m h).idxOf newline + 1) =
      lineCount (lines m h) nbytes := by
    unfold lineCount
    omega
  have enough : min (min nbytes.toNat terbufSize) ((lines m h).idxOf newline + 1) ≤
      (m1.terminals h).size.toNat := by
    have within := idxOf_lt_length_of_mem typed
    have size : (m1.terminals h).size.toNat = (lines m h).length := by
      rw [← lineEq1]
      exact (length_line _).symm
    omega
  obtain ⟨ringOk, rest, bytes⟩ := (ok1 h).1.consume enough
  rw [count] at rest bytes
  have rest' : line ((m1.terminals h).consume ((lines m h).idxOf newline + 1)
      (min nbytes.toNat terbufSize)).1 = (lines m h).drop (lineCount (lines m h) nbytes) := by
    rw [rest, ← lineEq1]
    rfl
  have bytes' : ((m1.terminals h).consume ((lines m h).idxOf newline + 1)
      (min nbytes.toNat terbufSize)).2 = (lines m h).take (lineCount (lines m h) nbytes) := by
    rw [bytes, ← lineEq1]
    rfl
  have taken : ((lines m h).take (lineCount (lines m h) nbytes)).length =
      lineCount (lines m h) nbytes := by
    rw [length_take, Nat.min_eq_left]
    unfold lineCount
    have within := idxOf_lt_length_of_mem typed
    omega
  refine ⟨(readFinish m1 h ((lines m h).idxOf newline + 1) (min nbytes.toNat terbufSize)).1,
    ?_, ?_, ?_⟩
  · unfold Kernel.terminalRead
    simp only [start, scanned, exit, if_true, readFinish, bytes', taken]
  · apply ok1.setTerminal ringOk
    rw [rest']
    exact fun mem => (ok h).2 (mem_of_mem_drop mem)
  · unfold readFinish
    rw [lines_setTerminal, rest', lineEq1]

/-! ## Runs -/

/-- Key events, and calls of `terminal_read` that run on a complete line.  A read is labelled
    with the terminal it reads from, its argument and its results. -/
inductive LineEvent where
  | key (e : KeyEvent)
  | read (h : ℕ) (nbytes value : ℤ) (bytes : List UInt8)

def LineStep (m : Machine) : LineEvent → Machine → Prop
  | .key e, m' => m' = keyExec m e
  | .read h nbytes value bytes, m' =>
    m.foregroundTerminal = some h ∧ 1 ≤ nbytes ∧ newline ∈ lines m h ∧
      terminalRead m 0 nbytes = some (m', value, bytes)

/-- The same events on queues of characters. -/
def QueueStep (q : ℕ → List UInt8) : LineEvent → (ℕ → List UInt8) → Prop
  | .key e, q' => q' = keyQueue q e
  | .read h nbytes value bytes, q' =>
    newline ∈ q h ∧ value = (lineCount (q h) nbytes : ℕ) ∧
      bytes = (q h).take (lineCount (q h) nbytes) ∧
      q' = update q h ((q h).drop (lineCount (q h) nbytes))

/-- Every terminal is as `terminal_create` leaves it. -/
def LinesBooted (m : Machine) : Prop := ∀ h, ∃ mem, m.terminals h = terminalCreate mem

theorem LinesBooted.empty (booted : LinesBooted m) : lines m = fun _ => [] := by
  funext h
  obtain ⟨mem, created⟩ := booted h
  unfold lines
  rw [created]
  rfl

theorem LinesBooted.ok (booted : LinesBooted m) : LinesOk m := by
  intro h
  rw [booted.empty]
  obtain ⟨mem, created⟩ := booted h
  rw [created]
  exact ⟨⟨Nat.zero_le _, rfl⟩, not_mem_nil⟩

theorem LinesOk.step {e : LineEvent} (ok : LinesOk m) (step : LineStep m e m') :
    LinesOk m' ∧ QueueStep (lines m) e (lines m') := by
  cases e with
  | key e =>
    cases step
    exact ok.keyExec e
  | read h nbytes value bytes =>
    obtain ⟨reader, positive, typed, done⟩ := step
    obtain ⟨m1, result, ok1, rest⟩ := ok.terminalRead reader positive typed
    rw [result] at done
    cases done
    exact ⟨ok1, typed, rfl, rfl, rest⟩

theorem LinesOk.run {events : List LineEvent} (run : Run LineStep m events m')
    (ok : LinesOk m) : LinesOk m' ∧ Run QueueStep (lines m) events (lines m') := by
  induction run with
  | nil m => exact ⟨ok, .nil _⟩
  | cons step _ ih =>
    obtain ⟨next, abstract⟩ := ok.step step
    obtain ⟨last, rest⟩ := ih next
    exact ⟨last, .cons abstract rest⟩

/-- The line buffers refine queues: a run from created terminals is a run of the queues with
    the same results, the buffers stay well formed, and a read of a complete line returns. -/
theorem line_buffer_refines {m m' : Machine} {events : List LineEvent} (booted : LinesBooted m)
    (run : Run LineStep m events m') :
    Run QueueStep (fun _ => []) events (lines m') ∧
    (∀ h, RingOk (m'.terminals h)) ∧
    ∀ h nbytes, m'.foregroundTerminal = some h → 1 ≤ nbytes → newline ∈ lines m' h →
      ∃ m'' value bytes, LineStep m' (.read h nbytes value bytes) m'' := by
  obtain ⟨ok, abstract⟩ := LinesOk.run run booted.ok
  rw [booted.empty] at abstract
  refine ⟨abstract, fun h => (ok h).1, fun h nbytes reader positive typed => ?_⟩
  obtain ⟨m'', result, -, -⟩ := ok.terminalRead reader positive typed
  exact ⟨m'', _, _, reader, positive, typed, result⟩

/-- `a` and Enter are typed, and the line is read. -/
theorem line_buffer_refines_line :
    ∃ m bytes, Run LineStep blankMachine
        [.key (.type 0x1e false 0), .key (.type 0x1c false 0), .read 0 5 2 bytes] m ∧
      Run QueueStep (fun _ => [])
        [.key (.type 0x1e false 0), .key (.type 0x1c false 0), .read 0 5 2 bytes] (lines m) := by
  have booted : LinesBooted blankMachine := fun h => ⟨blankTerminal, rfl⟩
  have typed : Run LineStep blankMachine [.key (.type 0x1e false 0), .key (.type 0x1c false 0)]
      (keyExec (keyExec blankMachine (.type 0x1e false 0)) (.type 0x1c false 0)) :=
    .cons rfl (.cons rfl (.nil _))
  obtain ⟨m, value, bytes, read⟩ :=
    (line_buffer_refines booted typed).2.2 0 5 (by decide +kernel) (by decide) (by decide +kernel)
  have count : value = 2 := by
    obtain ⟨-, value, -⟩ := ((LinesOk.run typed booted.ok).1.step read).2
    rw [value]
    decide +kernel
  subst count
  have run := typed.snoc read
  exact ⟨m, bytes, run, (line_buffer_refines booted run).1⟩

end Illinix.Verified.Terminal
