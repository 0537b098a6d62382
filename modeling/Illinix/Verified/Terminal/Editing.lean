import Illinix.Verified.Terminal.LineBuffer
import Mathlib.Data.List.GetD
import Mathlib.Tactic.IntervalCases

/-! # Key events edit the line

What a user expects of the keyboard: `Desk` has the modifier keys and the text of each terminal and the
console in the foreground, and `Desk.event` what a key is meant to do to them.  `Desk.press` says what
`key_press` does to them.

Three keys do more than they are meant to.  `case LALT` and `case TAB` have no `break`: Alt also erases a
character, and Tab with Alt held also switches to the first console.  And a character that is typed into
a full buffer pushes the oldest one out. -/

namespace Illinix.Verified.Terminal

open Kernel Lib Verified.Process Function List

variable {h idx scancode : ℕ} {m m' : Machine} {q : List UInt8}

/-! ## What keys are meant to do -/

structure Modifiers where
  capslock : Bool
  shift : Bool
  ctrl : Bool
  alt : Bool
deriving DecidableEq, Repr

/-- What the user sees of the terminals. -/
structure Desk where
  modifiers : ℕ → Modifiers
  text : ℕ → List UInt8
  current : ℕ

/-- The character of a key: Shift selects the other one of its two characters, and so does caps lock for
    letters.  Enter is a newline. -/
def keyText (f : Modifiers) (scancode : ℕ) : List UInt8 :=
  let (lower, upper) := scancodes.getD scancode (0, 0)
  let letter := decide (97 ≤ lower ∧ lower ≤ 122)
  let character := if xor f.shift (f.capslock && letter) then upper else lower
  if character = 0 then [] else if character = 13 then [10] else [character]

/-- F1, F2 and F3 select a console while Alt is held. -/
def consoleKey (f : Modifiers) (scancode : ℕ) : Option ℕ :=
  if f.alt = false then none
  else if scancode = 0x1e then some 0
  else if scancode = 0x1f then some 1
  else if scancode = 0x20 then some 2
  else none

/-- The characters that a key types.  Caps lock, Shift, Ctrl, Alt and Backspace type none, nor do Ctrl-L
    and the keys that select a console. -/
def typed (f : Modifiers) (scancode : ℕ) : List UInt8 :=
  if scancode ∈ [0x3a, 0x2a, 0x36, 0x1d, 0x38, 0x0e] then []
  else if scancode = 0x0f then replicate 4 32
  else if scancode = 0x26 ∧ f.ctrl = true then []
  else if (consoleKey f scancode).isSome then []
  else keyText f scancode

/-- The modifiers while a key is held, or after it for caps lock. -/
def pressed (f : Modifiers) (scancode : ℕ) : Modifiers :=
  if scancode = 0x3a then { f with capslock := !f.capslock }
  else if scancode = 0x2a ∨ scancode = 0x36 then { f with shift := true }
  else if scancode = 0x1d then { f with ctrl := true }
  else if scancode = 0x38 then { f with alt := true }
  else f

def released (f : Modifiers) (scancode : ℕ) : Modifiers :=
  if scancode = 0x2a ∨ scancode = 0x36 then { f with shift := false }
  else if scancode = 0x1d then { f with ctrl := false }
  else if scancode = 0x38 then { f with alt := false }
  else f

/-- A make or a break code for the terminal `h`. -/
inductive Key where
  | press (scancode h : ℕ)
  | release (scancode h : ℕ)

/-- Switching to another console also releases Alt. -/
def Desk.switch (d : Desk) (h idx : ℕ) : Desk :=
  if idx = d.current then
    d
  else
    { d with
      modifiers := update d.modifiers h { d.modifiers h with alt := false }
      current := idx }

def Desk.event (d : Desk) : Key → Desk
  | .press scancode h =>
    match consoleKey (d.modifiers h) scancode with
    | some idx => d.switch h idx
    | none =>
      { d with
        modifiers := update d.modifiers h (pressed (d.modifiers h) scancode)
        text := update d.text h
          (if scancode = 0x0e then (d.text h).dropLast
            else d.text h ++ typed (d.modifiers h) scancode) }
  | .release scancode h =>
    { d with modifiers := update d.modifiers h (released (d.modifiers h) scancode) }

/-! ## What they do -/

def modifiers (t : Terminal) : Modifiers := ⟨t.capslock, t.shift, t.ctrl, t.alt⟩

def desk (m : Machine) : Desk := ⟨fun h => modifiers (m.terminals h), lines m, m.current⟩

/-- Types the characters into a buffer of 128. -/
def pushText (q chars : List UInt8) : List UInt8 := chars.foldl pushChar q

/-- `key_press` -/
def Desk.press (d : Desk) (scancode h : ℕ) : Desk :=
  if scancode = 0x38 then
    { d with
      modifiers := update d.modifiers h { d.modifiers h with alt := true }
      text := update d.text h (d.text h).dropLast }
  else if scancode = 0x0f ∧ (d.modifiers h).alt = true then
    ⟨update d.modifiers h { d.modifiers h with alt := false },
      update d.text h (pushText (d.text h) (typed (d.modifiers h) scancode)), 0⟩
  else
    match consoleKey (d.modifiers h) scancode with
    | some idx => d.switch h idx
    | none =>
      { d with
        modifiers := update d.modifiers h (pressed (d.modifiers h) scancode)
        text := update d.text h
          (if scancode = 0x0e then (d.text h).dropLast
            else pushText (d.text h) (typed (d.modifiers h) scancode)) }

/-- The condition under which a key does what it is meant to do. -/
def Careful (d : Desk) : Key → Prop
  | .press scancode h =>
    (scancode = 0x38 → d.text h = []) ∧
    (scancode = 0x0f → (d.modifiers h).alt = false) ∧
    (d.text h).length + (typed (d.modifiers h) scancode).length ≤ terbufSize
  | .release _ _ => True

theorem length_pushChar_le (bound : q.length ≤ terbufSize) (c : UInt8) :
    (pushChar q c).length ≤ terbufSize := by
  unfold pushChar
  split
  · next full =>
    rw [length_append, length_tail, full, length_singleton]
    decide
  · next room =>
    rw [length_append]
    exact Nat.lt_of_le_of_ne bound room

theorem length_pushText_le (bound : q.length ≤ terbufSize) (chars : List UInt8) :
    (pushText q chars).length ≤ terbufSize := by
  unfold pushText
  induction chars generalizing q with
  | nil => exact bound
  | cons c chars ih => exact ih (length_pushChar_le bound c)

theorem pushText_of_room {chars : List UInt8} (room : q.length + chars.length ≤ terbufSize) :
    pushText q chars = q ++ chars := by
  unfold pushText
  induction chars generalizing q with
  | nil => exact (append_nil q).symm
  | cons c chars ih =>
    have first : pushChar q c = q ++ [c] := by
      unfold pushChar
      rw [if_neg]
      rw [length_cons] at room
      omega
    rw [foldl_cons, first, ih, append_assoc, singleton_append]
    rw [length_append, length_singleton]
    rw [length_cons] at room
    omega

theorem pushText_eq_append_iff (bound : q.length ≤ terbufSize) (chars : List UInt8) :
    pushText q chars = q ++ chars ↔ q.length + chars.length ≤ terbufSize := by
  constructor
  · intro appended
    have short := length_pushText_le bound chars
    rw [appended, length_append] at short
    exact short
  · exact pushText_of_room

theorem dropLast_eq_self_iff (q : List UInt8) : q.dropLast = q ↔ q = [] := by
  constructor
  · intro same
    have shorter := congrArg length same
    rw [length_dropLast] at shorter
    apply eq_nil_of_length_eq_zero
    omega
  · rintro rfl
    rfl

theorem consoleKey_eq_some {f : Modifiers} (target : consoleKey f scancode = some idx) :
    f.alt = true ∧ idx < 3 ∧ scancode = 0x1e + idx := by
  unfold consoleKey at target
  split_ifs at target <;> cases target <;> simp_all

theorem consoleKey_eq_none (f : Modifiers) (other : scancode ∉ [0x1e, 0x1f, 0x20]) :
    consoleKey f scancode = none := by
  simp only [mem_cons, not_mem_nil, or_false, not_or] at other
  obtain ⟨first, second, third⟩ := other
  unfold consoleKey
  rw [if_neg first, if_neg second, if_neg third, ite_self]

theorem typed_consoleKey {f : Modifiers} (target : consoleKey f scancode = some idx) :
    typed f scancode = [] := by
  obtain ⟨-, small, rfl⟩ := consoleKey_eq_some target
  unfold typed
  rw [target, if_neg (show ¬ 0x1e + idx = 0x0f by omega)]
  simp only [Option.isSome_some, if_true, ite_self]

theorem press_eq_event_iff {d : Desk} (bound : (d.text h).length ≤ terbufSize) (scancode : ℕ) :
    d.press scancode h = d.event (.press scancode h) ↔ Careful d (.press scancode h) := by
  unfold Desk.press Desk.event Careful
  by_cases alt : scancode = 0x38
  · subst alt
    have none := consoleKey_eq_none (d.modifiers h) (show 0x38 ∉ [0x1e, 0x1f, 0x20] by decide)
    have silent : typed (d.modifiers h) 0x38 = [] := if_pos (by decide)
    have same := (update_injective d.text h).eq_iff (a := (d.text h).dropLast) (b := d.text h)
    simp only [none, silent]
    simp [pressed, same, dropLast_eq_self_iff, bound, -update_eq_self]
  by_cases tab : scancode = 0x0f ∧ (d.modifiers h).alt = true
  · -- the switch releases Alt
    obtain ⟨rfl, held⟩ := tab
    have none := consoleKey_eq_none (d.modifiers h) (show 0x0f ∉ [0x1e, 0x1f, 0x20] by decide)
    refine iff_of_false (fun same => ?_) fun careful => ?_
    · have kept := congrFun (congrArg Desk.modifiers same) h
      simp only [none, update_self] at kept
      have released := congrArg Modifiers.alt kept
      simp [pressed, held] at released
    · have free := careful.2.1 rfl
      rw [held] at free
      cases free
  · rw [if_neg alt, if_neg tab]
    have free : scancode = 0x0f → (d.modifiers h).alt = false := by
      intro isTab
      rw [← Bool.not_eq_true]
      exact fun held => tab ⟨isTab, held⟩
    cases target : consoleKey (d.modifiers h) scancode with
    | some idx =>
      simp only [target, typed_consoleKey target]
      exact iff_of_true trivial ⟨fun isAlt => absurd isAlt alt, free, bound⟩
    | none =>
      by_cases back : scancode = 0x0e
      · subst back
        have silent : typed (d.modifiers h) 0x0e = [] := if_pos (by decide)
        simp only [target, if_true, silent]
        exact iff_of_true trivial ⟨fun isAlt => absurd isAlt alt, free, bound⟩
      · simp only [target, if_neg back, Desk.mk.injEq, true_and, and_true,
          (update_injective d.text h).eq_iff, pushText_eq_append_iff bound]
        exact ⟨fun room => ⟨fun isAlt => absurd isAlt alt, free, room⟩, fun careful => careful.2.2⟩

/-! ## The machine -/

/-- The state of the terminals as the driver keeps it: F1, F2 and F3 belong to the three consoles. -/
structure KeyboardOk (m : Machine) : Prop where
  rings : RingsOk m
  fkeys : ∀ c < 3, (m.consoles c).fkey.toNat = 0x1e + c
  current : m.current < 3

theorem desk_setTerminal (m : Machine) (h : ℕ) (t : Terminal) : desk (m.setTerminal h t) = { desk m with
        modifiers := update (desk m).modifiers h (modifiers t)
        text := update (desk m).text h (line t) } := by
  unfold desk
  rw [lines_setTerminal]
  congr 1
  funext h'
  rcases eq_or_ne h' h with rfl | other
  · rw [setTerminal_self, update_self]
  · rw [setTerminal_of_ne other, update_of_ne other]

/-- The terminal with other flags. -/
def withModifiers (t : Terminal) (f : Modifiers) : Terminal :=
  { t with capslock := f.capslock, shift := f.shift, ctrl := f.ctrl, alt := f.alt }

theorem desk_withModifiers (m : Machine) (h : ℕ) (f : Modifiers) :
    desk (m.setTerminal h (withModifiers (m.terminals h) f)) =
      { desk m with modifiers := update (desk m).modifiers h f } := by
  have kept : line (withModifiers (m.terminals h) f) = (desk m).text h := rfl
  rw [desk_setTerminal, kept, update_eq_self]
  rfl

section

variable {m m' : Machine} {h scancode : ℕ}

theorem inKey_modifiers (m : Machine) (scancode : ℕ) (caps : Bool) (h h' : ℕ) :
    modifiers ((inKey m scancode caps h).terminals h') = modifiers (m.terminals h') := by
  unfold inKey
  simp only
  split
  · rfl
  · have kept : ∀ t : Terminal, ∀ c, modifiers (t.insert c) = modifiers t := by
      intro t c
      unfold Terminal.insert
      simp only
      split_ifs <;> rfl
    rw [setTerminal_field modifiers (kept ..)]
    exact (putcTo_drawn ..).field modifiers (fun _ _ _ => rfl) h'

theorem backspace_modifiers (m : Machine) (h h' : ℕ) :
    modifiers ((backspace m h).terminals h') = modifiers (m.terminals h') := by
  unfold backspace
  split
  · rfl
  · have kept : ∀ t : Terminal, modifiers t.erase = modifiers t := by
      intro t
      unfold Terminal.erase
      split_ifs <;> rfl
    rw [setTerminal_field modifiers (kept ..)]
    exact (back_drawn m h).field modifiers (fun _ _ _ => rfl) h'

theorem desk_backspace (rings : RingsOk m) (h : ℕ) :
    desk (backspace m h) = { desk m with text := update (desk m).text h ((desk m).text h).dropLast } := by
  unfold desk
  rw [(rings.backspace h).2, backspace_toProcesses]
  congr 1
  exact funext (backspace_modifiers m h)

/-- The characters of one call of `in`. -/
def stored (c : UInt8) : List UInt8 := if c = 0 then [] else [c]

theorem desk_inKey (rings : RingsOk m) (scancode : ℕ) (caps : Bool) (h : ℕ) :
    desk (inKey m scancode caps h) = { desk m with
        text := update (desk m).text h (pushText ((desk m).text h) (stored (keyChar scancode caps))) } := by
  unfold desk
  rw [(rings.inKey scancode caps h).2, inKey_toProcesses]
  congr 1
  · exact funext (inKey_modifiers m scancode caps h)
  · unfold stored keyQueue
    simp only
    split
    · exact (update_eq_self h _).symm
    · rfl

theorem isletter_eq : ∀ scancode < keyboardSize, isletter scancode =
      decide (97 ≤ (scancodes.getD scancode (0, 0)).1 ∧ (scancodes.getD scancode (0, 0)).1 ≤ 122) := by
  decide

/-- The default case types the character that is meant. -/
theorem stored_typeKey (t : Terminal) (scancode : ℕ) :
    stored (keyChar scancode (if t.shift then !(t.capslock && isletter scancode)
      else t.capslock && isletter scancode)) = keyText (modifiers t) scancode := by
  unfold stored keyChar keyText
  by_cases large : keyboardSize ≤ scancode
  · have beyond : scancodes.getD scancode (0, 0) = (0, 0) := getD_eq_default _ _ large
    rw [if_pos large, beyond]
    simp
  · have inverted : ∀ a b : Bool, (if a then !b else b) = xor a b := by decide
    rw [if_neg large, isletter_eq scancode (Nat.not_le.mp large), inverted]
    have enter : ∀ c : UInt8, (if (if c = carriageReturn then newline else c) = 0 then []
        else [if c = carriageReturn then newline else c]) =
        if c = 0 then [] else if c = 13 then [10] else [c] := by
      intro c
      by_cases enter : c = 13
      · subst enter
        rfl
      · rw [if_neg (show ¬ c = carriageReturn from enter), if_neg enter]
    exact enter _

theorem desk_typeKey (rings : RingsOk m) (scancode h : ℕ) : desk (typeKey m scancode h) = { desk m with
        text := update (desk m).text h
          (pushText ((desk m).text h) (keyText ((desk m).modifiers h) scancode)) } := by
  unfold typeKey
  rw [desk_inKey rings, stored_typeKey]
  rfl

theorem desk_foldl_inKey (rings : RingsOk m) (h : ℕ) (l : List ℕ) :
    RingsOk (l.foldl (fun m _ => inKey m spaceKey false h) m) ∧
    desk (l.foldl (fun m _ => inKey m spaceKey false h) m) = { desk m with
        text := update (desk m).text h (pushText ((desk m).text h) (replicate l.length 32)) } := by
  induction l generalizing m with
  | nil =>
    refine ⟨rings, ?_⟩
    exact congrArg (Desk.mk _ · _) (update_eq_self h _).symm
  | cons i l ih =>
    obtain ⟨next, -⟩ := rings.inKey spaceKey false h
    obtain ⟨last, text⟩ := ih next
    refine ⟨last, ?_⟩
    rw [foldl_cons, text, desk_inKey rings]
    simp only [update_self, update_idem]
    rfl

theorem desk_redraw (done : redraw m h = .ok m') : desk m' = desk m := by
  unfold desk
  rw [(redraw_drawn done).toProcesses]
  congr 1
  · exact funext ((redraw_drawn done).field modifiers fun _ _ _ => rfl)
  · exact funext fun h' => line_congr ((redraw_drawn done).field ring (fun _ _ _ => rfl) h')

theorem terminalSwitch_ok {idx : ℕ} (other : scancode ≠ (m.consoles m.current).fkey.toNat)
    (done : terminalSwitch m scancode h idx = .ok m') :
    m'.consoles = m.consoles ∧ (∀ h', ring (m'.terminals h') = ring (m.terminals h')) ∧
    desk m' =
      { desk m with
        modifiers := update (desk m).modifiers h { (desk m).modifiers h with alt := false }
        current := idx } := by
  unfold terminalSwitch at done
  rw [if_neg other] at done
  obtain ⟨nextTerminal, -, done⟩ := bind_eq_ok.mp done
  obtain ⟨m1, table, done⟩ := bind_eq_ok.mp done
  unfold switchVidmap at table
  obtain ⟨saved, -, table⟩ := bind_eq_ok.mp table
  cases table
  cases done
  have rings : ∀ h', ring ((swapScreens m h nextTerminal (m.consoles idx).task).terminals h') =
      ring (m.terminals h') := by
    intro h'
    rw [swapScreens_field ring (fun _ _ => rfl)]
    exact setTerminal_field ring (by rfl) h'
  refine ⟨(swapScreens_rescheduled m h nextTerminal _).consoles, rings, ?_⟩
  unfold desk
  congr 1
  · funext h'
    rw [swapScreens_field modifiers (fun _ _ => rfl)]
    rcases eq_or_ne h' h with rfl | elsewhere
    · rw [setTerminal_self, update_self]
      rfl
    · rw [setTerminal_of_ne elsewhere, update_of_ne elsewhere]
  · exact funext fun h' => line_congr (rings h')

section

variable (ok : KeyboardOk m)

include ok

theorem KeyboardOk.congr (same : m'.toProcesses = m.toProcesses) (rings : RingsOk m') :
    KeyboardOk m' := by
  refine ⟨rings, ?_, ?_⟩
  · rw [same]
    exact ok.fkeys
  · rw [same]
    exact ok.current

theorem KeyboardOk.withModifiers (h : ℕ) (f : Modifiers) :
    KeyboardOk (m.setTerminal h (withModifiers (m.terminals h) f)) :=
  ok.congr rfl (ok.rings.setTerminal (@ringOk_congr (m.terminals h) _ rfl (ok.rings h)))

theorem KeyboardOk.typeKey (scancode h : ℕ) : KeyboardOk (typeKey m scancode h) :=
  ok.congr (typeKey_toProcesses ..) (ok.rings.inKey ..).1

theorem KeyboardOk.backspace (h : ℕ) : KeyboardOk (backspace m h) :=
  ok.congr (backspace_toProcesses ..) (ok.rings.backspace h).1

theorem KeyboardOk.terminalSwitch {idx : ℕ} (console : idx < 3)
    (other : scancode ≠ (m.consoles m.current).fkey.toNat)
    (done : terminalSwitch m scancode h idx = .ok m') : KeyboardOk m' := by
  obtain ⟨consoles, rings, after⟩ := terminalSwitch_ok other done
  refine ⟨ok.rings.congr rings, ?_, ?_⟩
  · rw [consoles]
    exact ok.fkeys
  · have current := congrArg Desk.current after
    change m'.current = idx at current
    rw [current]
    exact console

end

end

section

variable {d : Desk} {scancode h : ℕ}

theorem press_eq (alt : scancode ≠ 0x38) (tab : ¬ (scancode = 0x0f ∧ (d.modifiers h).alt = true))
    (stays : consoleKey (d.modifiers h) scancode = none) :
    d.press scancode h = { d with
        modifiers := update d.modifiers h (pressed (d.modifiers h) scancode)
        text := update d.text h (if scancode = 0x0e then (d.text h).dropLast
            else pushText (d.text h) (typed (d.modifiers h) scancode)) } := by
  unfold Desk.press
  rw [if_neg alt, if_neg tab, stays]

theorem pressed_eq_self (f : Modifiers) (plain : scancode ∉ [0x3a, 0x2a, 0x36, 0x1d, 0x38]) :
    pressed f scancode = f := by
  simp only [mem_cons, not_mem_nil, or_false, not_or] at plain
  obtain ⟨caps, left, right, ctrl, alt⟩ := plain
  simp [pressed, caps, left, right, ctrl, alt]

/-- What the keys that have a character type. -/
theorem press_types (plain : scancode ∉ [0x3a, 0x2a, 0x36, 0x1d, 0x38, 0x0e, 0x0f])
    (redraws : ¬ (scancode = 0x26 ∧ (d.modifiers h).ctrl = true))
    (stays : consoleKey (d.modifiers h) scancode = none) :
    d.press scancode h = { d with
        text := update d.text h (pushText (d.text h) (keyText (d.modifiers h) scancode)) } := by
  simp only [mem_cons, not_mem_nil, or_false, not_or] at plain
  obtain ⟨caps, left, right, ctrl, alt, back, tab⟩ := plain
  have chars : typed (d.modifiers h) scancode = keyText (d.modifiers h) scancode := by
    simp [typed, caps, left, right, ctrl, alt, back, tab, redraws, stays]
  rw [press_eq alt (fun both => tab both.1) stays, pressed_eq_self, if_neg back, chars, update_eq_self]
  simp [caps, left, right, ctrl, alt]

/-- Caps lock, Shift and Ctrl, and Ctrl-L. -/
theorem press_silent (silent : typed (d.modifiers h) scancode = []) (alt : scancode ≠ 0x38)
    (back : scancode ≠ 0x0e) (stays : consoleKey (d.modifiers h) scancode = none) :
    d.press scancode h = { d with modifiers := update d.modifiers h (pressed (d.modifiers h) scancode) } := by
  have tab : ¬ (scancode = 0x0f ∧ (d.modifiers h).alt = true) := by
    rintro ⟨rfl, -⟩
    cases silent
  rw [press_eq alt tab stays, silent, if_neg back]
  exact congrArg (Desk.mk _ · _) (update_eq_self h _)

theorem press_backspace (d : Desk) (h : ℕ) :
    d.press 0x0e h = { d with text := update d.text h (d.text h).dropLast } := by
  rw [press_eq (by decide) (by simp) (consoleKey_eq_none _ (by decide)), pressed_eq_self _ (by decide),
    if_pos rfl, update_eq_self]

theorem press_redraw (d : Desk) (h : ℕ) (ctrl : (d.modifiers h).ctrl = true) : d.press 0x26 h = d := by
  have silent : typed (d.modifiers h) 0x26 = [] := by
    unfold typed
    rw [if_neg (by decide), if_neg (by decide), if_pos ⟨rfl, ctrl⟩]
  rw [press_silent silent (by decide) (by decide) (consoleKey_eq_none _ (by decide)),
    pressed_eq_self _ (by decide), update_eq_self]

theorem press_tab (d : Desk) (h : ℕ) (free : ¬ (d.modifiers h).alt = true) :
    d.press 0x0f h = { d with text := update d.text h (pushText (d.text h) (replicate 4 32)) } := by
  rw [press_eq (by decide) (fun both => free both.2) (consoleKey_eq_none _ (by decide)),
    pressed_eq_self _ (by decide), if_neg (by decide), update_eq_self]
  rfl

end

theorem switchKey_ok (ok : KeyboardOk m) (console : idx < 3) (done : switchKey m (0x1e + idx) h idx = .ok m') :
    KeyboardOk m' ∧ desk m' = (desk m).press (0x1e + idx) h := by
  unfold switchKey at done
  by_cases alt : (m.terminals h).alt = true
  · have held : ((desk m).modifiers h).alt = true := alt
    have selected : consoleKey ((desk m).modifiers h) (0x1e + idx) = some idx := by
      unfold consoleKey
      rw [if_neg (by rw [held]; decide)]
      interval_cases idx <;> rfl
    have press : (desk m).press (0x1e + idx) h = (desk m).switch h idx := by
      unfold Desk.press
      rw [if_neg (by omega), if_neg (by omega), selected]
    rw [if_pos alt] at done
    rw [press]
    unfold Desk.switch
    -- the key of the console in the foreground does nothing
    have fkey := ok.fkeys m.current ok.current
    by_cases here : idx = m.current
    · unfold terminalSwitch at done
      rw [if_pos (by rw [fkey, here])] at done
      cases done
      exact ⟨ok, (if_pos here).symm⟩
    · have other : 0x1e + idx ≠ (m.consoles m.current).fkey.toNat := by
        omega
      rw [if_neg (show ¬ idx = (desk m).current from here)]
      exact ⟨ok.terminalSwitch console other done, (terminalSwitch_ok other done).2.2⟩
  · rw [if_neg alt] at done
    cases done
    refine ⟨ok.typeKey _ h, ?_⟩
    rw [desk_typeKey ok.rings, press_types]
    · simp only [mem_cons, not_mem_nil, or_false]
      omega
    · omega
    · exact if_pos (Bool.not_eq_true _ ▸ alt)

/-- Tab types spaces, and goes on to the case of F1. -/
theorem switchKey_tab_ok (ok : KeyboardOk m) (done : switchKey (outTab m 4 h) 0x0f h 0 = .ok m') :
    KeyboardOk m' ∧ desk m' = (desk m).press 0x0f h := by
  obtain ⟨rings, spaces⟩ : RingsOk (outTab m 4 h) ∧ desk (outTab m 4 h) = { desk m with
      text := update (desk m).text h (pushText ((desk m).text h) (replicate 4 32)) } :=
    desk_foldl_inKey ok.rings h (range 4)
  have tabbed : KeyboardOk (outTab m 4 h) := ok.congr (outTab_toProcesses ..) rings
  have flags : modifiers ((outTab m 4 h).terminals h) = (desk m).modifiers h :=
    congrFun (congrArg Desk.modifiers spaces) h
  unfold switchKey at done
  by_cases alt : ((outTab m 4 h).terminals h).alt = true
  · have held : ((desk m).modifiers h).alt = true := by
      rw [← flags]
      exact alt
    have other : 0x0f ≠ ((outTab m 4 h).consoles (outTab m 4 h).current).fkey.toNat := by
      rw [tabbed.fkeys _ tabbed.current]
      omega
    rw [if_pos alt] at done
    refine ⟨tabbed.terminalSwitch (by decide) other done, ?_⟩
    rw [(terminalSwitch_ok other done).2.2, spaces]
    unfold Desk.press
    rw [if_neg (by decide), if_pos ⟨rfl, held⟩]
    rfl
  · have free : ¬ ((desk m).modifiers h).alt = true := by
      rw [← flags]
      exact alt
    rw [if_neg alt] at done
    cases done
    refine ⟨tabbed.typeKey _ h, ?_⟩
    have none : ∀ f, keyText f 0x0f = [] := by
      intro f
      unfold keyText
      simp only
      rw [show scancodes.getD 0x0f (0, 0) = (0, 0) from rfl, ite_self]
      rfl
    rw [desk_typeKey rings, spaces, none, press_tab _ _ free]
    simp only [update_self, update_idem]
    rfl

theorem modifierPress_ok (ok : KeyboardOk m) (scancode h : ℕ) (modifier : scancode ∈ [0x3a, 0x2a, 0x36, 0x1d]) :
    KeyboardOk (m.setTerminal h
      (withModifiers (m.terminals h) (pressed (modifiers (m.terminals h)) scancode))) ∧
    desk (m.setTerminal h (withModifiers (m.terminals h) (pressed (modifiers (m.terminals h)) scancode))) =
        (desk m).press scancode h := by
  refine ⟨ok.withModifiers h _, ?_⟩
  simp only [mem_cons, not_mem_nil, or_false] at modifier
  have silent : typed ((desk m).modifiers h) scancode = [] := by
    apply if_pos
    simp only [mem_cons, not_mem_nil, or_false]
    omega
  have stays : scancode ∉ [0x1e, 0x1f, 0x20] := by
    simp only [mem_cons, not_mem_nil, or_false]
    omega
  rw [desk_withModifiers, press_silent silent (by omega) (by omega) (consoleKey_eq_none _ stays)]
  rfl

theorem keyPress_ok (ok : KeyboardOk m) (done : keyPress m scancode h = .ok m') :
    KeyboardOk m' ∧ desk m' = (desk m).press scancode h := by
  unfold keyPress at done
  simp only at done
  split at done
  case h_1 =>
    cases done
    exact modifierPress_ok ok 0x3a h (by decide)
  case h_2 =>
    cases done
    exact modifierPress_ok ok 0x2a h (by decide)
  case h_3 =>
    cases done
    exact modifierPress_ok ok 0x36 h (by decide)
  case h_4 =>
    cases done
    have alt := ok.withModifiers h { modifiers (m.terminals h) with alt := true }
    refine ⟨alt.backspace h, ?_⟩
    refine (desk_backspace alt.rings h).trans ?_
    rw [desk_withModifiers]
    rfl
  case h_5 =>
    cases done
    refine ⟨ok.backspace h, ?_⟩
    rw [desk_backspace ok.rings, press_backspace]
  case h_6 =>
    cases done
    exact modifierPress_ok ok 0x1d h (by decide)
  case h_7 => exact switchKey_tab_ok ok done
  case h_8 => exact @switchKey_ok h 0 m m' ok (by decide) done
  case h_9 => exact @switchKey_ok h 1 m m' ok (by decide) done
  case h_10 => exact @switchKey_ok h 2 m m' ok (by decide) done
  case h_11 =>
    split at done
    · next ctrl =>
      refine ⟨ok.congr ((redraw_drawn done).toProcesses) (ok.rings.congr ?_), ?_⟩
      · exact (redraw_drawn done).field ring fun _ _ _ => rfl
      · rw [desk_redraw done, press_redraw _ _ ctrl]
    · next free =>
      cases done
      refine ⟨ok.typeKey _ h, ?_⟩
      rw [desk_typeKey ok.rings, press_types (by decide) (fun both => free both.2)]
      exact consoleKey_eq_none _ (by decide)
  case h_12 caps left right alt back ctrl tab first second third redraws =>
    cases done
    refine ⟨ok.typeKey _ h, ?_⟩
    rw [desk_typeKey ok.rings, press_types]
    · simp only [mem_cons, not_mem_nil, or_false, not_or]
      exact ⟨caps, left, right, ctrl, alt, back, tab⟩
    · exact fun both => redraws both.1
    · apply consoleKey_eq_none
      simp only [mem_cons, not_mem_nil, or_false, not_or]
      exact ⟨first, second, third⟩

theorem keyRelease_eq (m : Machine) (scancode h : ℕ) : keyRelease m scancode h = m.setTerminal h
        (withModifiers (m.terminals h) (released (modifiers (m.terminals h)) scancode)) := by
  unfold keyRelease
  split
  case h_1 => rfl
  case h_2 => rfl
  case h_3 => rfl
  case h_4 => rfl
  case h_5 left right ctrl alt =>
    have same : released (modifiers (m.terminals h)) scancode = modifiers (m.terminals h) := by
      unfold released
      rw [if_neg (not_or.mpr ⟨left, right⟩), if_neg ctrl, if_neg alt]
    rw [same]
    change m = { m with terminals := update m.terminals h (m.terminals h) }
    rw [update_eq_self]

/-! ## Sequences of keys -/

/-- `key_press` or `key_release` -/
def keyEvent (m : Machine) : Key → Except Fault Machine
  | .press scancode h => keyPress m scancode h
  | .release scancode h => pure (keyRelease m scancode h)

/-- Caps lock, Shift, Ctrl and Alt, and all releases. -/
def Key.modifies : Key → Prop
  | .press scancode _ => scancode ∈ [0x3a, 0x2a, 0x36, 0x1d, 0x38]
  | .release _ _ => True

/-- The machines differ in the flags of the terminals only. -/
def OnlyModifiers (m m' : Machine) : Prop :=
  m' = { m with terminals := fun h => withModifiers (m.terminals h) (modifiers (m'.terminals h)) }

/-- The key has done what it is meant to do, and nothing else. -/
structure Intended (m : Machine) (key : Key) (m' : Machine) : Prop where
  done : keyEvent m key = .ok m'
  desk : desk m' = (desk m).event key
  modifiers : key.modifies → OnlyModifiers m m'
  switch : m'.current ≠ m.current →
    ∃ scancode h, key = .press scancode h ∧ (m.terminals h).alt = true ∧ scancode ∈ [0x1e, 0x1f, 0x20]

theorem onlyModifiers_withModifiers (m : Machine) (h : ℕ) (f : Modifiers) :
    OnlyModifiers m (m.setTerminal h (withModifiers (m.terminals h) f)) := by
  have terminals : update m.terminals h (withModifiers (m.terminals h) f) = fun h' =>
      withModifiers (m.terminals h') (modifiers
        ((m.setTerminal h (withModifiers (m.terminals h) f)).terminals h')) := by
    funext h'
    rcases eq_or_ne h' h with rfl | other
    · rw [update_self, setTerminal_self]
      rfl
    · rw [update_of_ne other, setTerminal_of_ne other]
      rfl
  unfold OnlyModifiers
  rw [← terminals]
  rfl

/-- Alt erases nothing in an empty line. -/
theorem keyPress_modifies (modifier : scancode ∈ [0x3a, 0x2a, 0x36, 0x1d, 0x38])
    (empty : scancode = 0x38 → lines m h = [])
    (done : keyPress m scancode h = .ok m') : OnlyModifiers m m' := by
  simp only [mem_cons, not_mem_nil, or_false] at modifier
  rcases modifier with rfl | rfl | rfl | rfl | rfl
  · cases done
    exact onlyModifiers_withModifiers m h (pressed (modifiers (m.terminals h)) 0x3a)
  · cases done
    exact onlyModifiers_withModifiers m h (pressed (modifiers (m.terminals h)) 0x2a)
  · cases done
    exact onlyModifiers_withModifiers m h (pressed (modifiers (m.terminals h)) 0x36)
  · cases done
    exact onlyModifiers_withModifiers m h (pressed (modifiers (m.terminals h)) 0x1d)
  · cases done
    have size : (m.terminals h).size = 0 := by
      have short := congrArg length (empty rfl)
      unfold lines at short
      rw [length_line] at short
      exact UInt8.toNat_inj.mp short
    have still : backspace (m.setTerminal h { m.terminals h with alt := true }) h =
        m.setTerminal h { m.terminals h with alt := true } := by
      unfold backspace
      rw [setTerminal_self]
      exact if_pos size
    rw [still]
    exact onlyModifiers_withModifiers m h (pressed (modifiers (m.terminals h)) 0x38)

theorem event_current {d : Desk} {key : Key} (switched : (d.event key).current ≠ d.current) :
    ∃ scancode h, key = .press scancode h ∧ (d.modifiers h).alt = true ∧
      scancode ∈ [0x1e, 0x1f, 0x20] := by
  cases key with
  | press scancode h =>
    unfold Desk.event at switched
    simp only at switched
    split at switched
    · next idx target =>
      obtain ⟨alt, small, rfl⟩ := consoleKey_eq_some target
      refine ⟨_, h, rfl, alt, ?_⟩
      simp only [mem_cons, not_mem_nil, or_false]
      omega
    · exact absurd rfl switched
  | release scancode h => exact absurd rfl switched

theorem keyEvent_ok {key : Key} (ok : KeyboardOk m) (done : keyEvent m key = .ok m') :
    KeyboardOk m' ∧ (Intended m key m' ↔ Careful (desk m) key) := by
  cases key with
  | press scancode h =>
    obtain ⟨next, after⟩ := keyPress_ok ok done
    have bound : ((desk m).text h).length ≤ terbufSize := by
      change (lines m h).length ≤ terbufSize
      unfold lines
      rw [length_line]
      exact (ok.rings h).bound
    have careful := press_eq_event_iff bound scancode
    refine ⟨next, fun intended => ?_, fun care => ?_⟩
    · rw [← careful, ← after]
      exact intended.desk
    · have meant : desk m' = (desk m).event (.press scancode h) := after.trans (careful.mpr care)
      refine ⟨done, meant, fun modifier => keyPress_modifies modifier care.1 done, fun switched => ?_⟩
      apply event_current (d := desk m)
      rw [← meant]
      exact switched
  | release scancode h =>
    cases done
    rw [keyRelease_eq]
    refine ⟨ok.withModifiers h _, iff_of_true ?_ trivial⟩
    refine ⟨congrArg Except.ok (keyRelease_eq m scancode h), desk_withModifiers m h _, ?_, ?_⟩
    · exact fun _ => onlyModifiers_withModifiers m h _
    · exact fun switched => absurd rfl switched

def KeyboardStep (m : Machine) (key : Key) (m' : Machine) : Prop := keyEvent m key = .ok m'

/-- Each key of the sequence is pressed when it does what it is meant to do. -/
def CarefulKeys : Desk → List Key → Prop
  | _, [] => True
  | d, key :: keys => Careful d key ∧ CarefulKeys (d.event key) keys

/-- Each key of a sequence edits the line as intended if and only if Alt is pressed at an empty line, Tab
    without Alt, and characters are typed while there is room for them.  Then the lines are what the
    sequence is meant to make of them. -/
theorem keys_edit_line_iff {m m' : Machine} {keys : List Key} (ok : KeyboardOk m)
    (run : Run KeyboardStep m keys m') :
    (Run Intended m keys m' ↔ CarefulKeys (desk m) keys) ∧
    (CarefulKeys (desk m) keys → desk m' = keys.foldl Desk.event (desk m)) := by
  induction run with
  | nil m => exact ⟨iff_of_true (.nil m) trivial, fun _ => rfl⟩
  | @cons m m1 m' key keys step _ ih =>
    obtain ⟨next, intended⟩ := keyEvent_ok ok step
    obtain ⟨rest, text⟩ := ih next
    refine ⟨⟨fun run => ?_, fun careful => ?_⟩, fun careful => ?_⟩
    · cases run with
      | cons first last =>
        cases step.symm.trans first.done
        refine ⟨intended.mp first, ?_⟩
        rw [← first.desk]
        exact rest.mp last
    · have first := intended.mpr careful.1
      refine .cons first (rest.mpr ?_)
      rw [first.desk]
      exact careful.2
    · have first := intended.mpr careful.1
      rw [foldl_cons, ← first.desk]
      apply text
      rw [first.desk]
      exact careful.2

/-- Three consoles with a terminal each, the second one in the foreground. -/
def threeConsoles : Machine :=
  { blankMachine with
    threads := fun p => { blankThread with terminal := some p }
    consoles := fun c => ⟨c, 0x1e + c.toUInt32, c, 0⟩
    current := 1 }

theorem threeConsoles_ok : KeyboardOk threeConsoles where
  rings _ := ⟨Nat.zero_le _, rfl⟩
  fkeys := by decide
  current := by decide

/-- Shift and `a`, and Shift is released. -/
theorem keys_edit_line_capital : ∃ m,
    Run KeyboardStep threeConsoles [.press 0x2a 1, .press 0x1e 1, .release 0x2a 1] m ∧
    (desk m).text 1 = [65] := by
  have run : Run KeyboardStep threeConsoles [.press 0x2a 1, .press 0x1e 1, .release 0x2a 1] _ :=
    .cons rfl (.cons rfl (.cons rfl (.nil _)))
  refine ⟨_, run, ?_⟩
  rw [(keys_edit_line_iff threeConsoles_ok run).2]
  · decide +kernel
  · exact ⟨⟨by decide +kernel, by decide +kernel, by decide +kernel⟩,
      ⟨by decide +kernel, by decide +kernel, by decide +kernel⟩, trivial, trivial⟩

/-- Alt takes back the `a` that was typed before.  Tab with Alt types four spaces and switches to the
    first console. -/
theorem alt_erases :
    (∃ m, Run KeyboardStep threeConsoles [.press 0x1e 1, .press 0x38 1] m ∧ (desk m).text 1 = [] ∧
      (([.press 0x1e 1, .press 0x38 1] : List Key).foldl Desk.event (desk threeConsoles)).text 1 = [97]) ∧
    ∃ m, Run KeyboardStep threeConsoles [.press 0x38 1, .press 0x0f 1] m ∧ (desk m).text 1 = [32, 32, 32, 32] ∧
      m.current = 0 := by
  constructor
  · have run : Run KeyboardStep threeConsoles [.press 0x1e 1, .press 0x38 1] _ :=
      .cons rfl (.cons rfl (.nil _))
    exact ⟨_, run, by decide +kernel, by decide +kernel⟩
  · have run : Run KeyboardStep threeConsoles [.press 0x38 1, .press 0x0f 1] _ :=
      .cons rfl (.cons rfl (.nil _))
    exact ⟨_, run, by decide +kernel, by decide +kernel⟩

end Illinix.Verified.Terminal
