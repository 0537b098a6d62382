import Illinix.Verified.Terminal.Basic

/-! # Stores to video memory

Clearing, scrolling and printing store within the 80x25 cells of one screen, and printing
keeps the cursor inside it. -/

namespace Illinix.Verified.Terminal

open Kernel Lib Function List

/-- The bytes of an 80x25 screen. -/
def screenBytes : Nat := 2 * (numRows * numCols)

/-- `mem'` differs from `mem` at most in the screen at `vidmem`. -/
def OnScreen (vidmem : Nat) (mem mem' : VideoMem) : Prop :=
  ∀ a, a < vidmem ∨ vidmem + screenBytes ≤ a → mem' a = mem a

theorem OnScreen.trans {vidmem : Nat} {mem mem' mem'' : VideoMem} (first : OnScreen vidmem mem mem')
    (second : OnScreen vidmem mem' mem'') : OnScreen vidmem mem mem'' :=
  fun a outside => (second a outside).trans (first a outside)

theorem setCell_onScreen (mem : VideoMem) (vidmem : Nat) {i : Nat} (c : UInt8)
    (inside : i < numRows * numCols) : OnScreen vidmem mem (setCell mem vidmem i c) := by
  intro a outside
  unfold screenBytes at outside
  unfold setCell
  rw [update_of_ne (by omega), update_of_ne (by omega)]

/-- A loop over cells of the screen stays on it, whatever it stores. -/
theorem foldl_onScreen (vidmem : Nat) (value : VideoMem → Nat → UInt8) {cells : List Nat}
    (inside : ∀ i ∈ cells, i < numRows * numCols) (mem : VideoMem) :
    OnScreen vidmem mem (cells.foldl (fun mem i => setCell mem vidmem i (value mem i)) mem) := by
  induction cells generalizing mem with
  | nil => exact fun _ _ => rfl
  | cons i cells ih =>
    rw [forall_mem_cons] at inside
    exact (setCell_onScreen mem vidmem _ inside.1).trans (ih inside.2 _)

theorem vgaClear_onScreen (mem : VideoMem) (vidmem : Nat) :
    OnScreen vidmem mem (vgaClear mem vidmem) := by
  apply foldl_onScreen vidmem (fun _ _ => blank)
  intro i hi
  exact mem_range.mp hi

theorem vgaScrolling_onScreen (mem : VideoMem) (vidmem : Nat) :
    OnScreen vidmem mem (vgaScrolling mem vidmem) := by
  unfold vgaScrolling
  refine OnScreen.trans (foldl_onScreen vidmem (fun mem i => mem (vidmem + 2 * (i + numCols))) ?_ mem)
    (foldl_onScreen vidmem (fun _ _ => blank) ?_ _)
  · intro i hi
    have := mem_range.mp hi
    unfold numCols numRows at *
    omega
  · intro i hi
    obtain ⟨k, hk, rfl⟩ := mem_range'.mp hi
    unfold numCols numRows at *
    omega

theorem vgaClear_blank (mem : VideoMem) (vidmem : Nat) {i : Nat} (inside : i < numRows * numCols) :
    vgaClear mem vidmem (vidmem + 2 * i) = blank ∧
    vgaClear mem vidmem (vidmem + 2 * i + 1) = attrib := by
  -- the cells before the loop variable have been stored
  have stored : ∀ n, i < n →
      (range n).foldl (fun mem i => setCell mem vidmem i blank) mem (vidmem + 2 * i) = blank ∧
      (range n).foldl (fun mem i => setCell mem vidmem i blank) mem (vidmem + 2 * i + 1) =
        attrib := by
    intro n
    induction n with
    | zero => exact fun before => absurd before (Nat.not_lt_zero i)
    | succ n ih =>
      intro before
      rw [range_succ, foldl_append, foldl_cons, foldl_nil]
      unfold setCell
      rcases Nat.lt_succ_iff_lt_or_eq.mp before with earlier | rfl
      · rw [update_of_ne (by omega), update_of_ne (by omega),
          update_of_ne (by omega), update_of_ne (by omega)]
        exact ih earlier
      · rw [update_of_ne (by omega), update_self, update_self]
        exact ⟨rfl, rfl⟩
  exact stored _ inside

/-! ## Printing -/

/-- The cursor is inside 80x25. -/
def CursorOk (t : Terminal) : Prop := t.screenX.toNat < numCols ∧ t.screenY.toNat < numRows

theorem toUInt8_toNat {x n : Nat} (below : x < n) (small : n ≤ 256) : x.toUInt8.toNat = x :=
  Nat.mod_eq_of_lt (Nat.lt_of_lt_of_le below small)

theorem emit_onScreen (mem : VideoMem) (vidmem : Nat) {x y : Nat} (c : UInt8) (hx : x < numCols)
    (hy : y < numRows) : OnScreen vidmem mem (emit mem vidmem x y c).1 := by
  have written : OnScreen vidmem mem (vgaWrite mem vidmem x.toUInt8 y.toUInt8 c) := by
    apply setCell_onScreen
    rw [toUInt8_toNat hx (by decide), toUInt8_toNat hy (by decide)]
    unfold numCols numRows at *
    omega
  unfold emit
  split
  · split
    · exact vgaScrolling_onScreen mem vidmem
    · exact fun _ _ => rfl
  · simp only
    split
    · split
      · exact written
      · exact written.trans (vgaScrolling_onScreen _ vidmem)
    · exact written

theorem emit_cursor (mem : VideoMem) (vidmem : Nat) {x y : Nat} (c : UInt8) (hy : y < numRows) :
    (emit mem vidmem x y c).2.1 < numCols ∧ (emit mem vidmem x y c).2.2 < numRows := by
  have column : (x + 1) % numCols < numCols := Nat.mod_lt _ (by decide)
  have first : 0 < numCols := by decide
  have below : y + 1 ≠ numRows → y + 1 < numRows := fun last => by omega
  unfold emit
  split
  · split
    · exact ⟨first, hy⟩
    · next last => exact ⟨first, below last⟩
  · simp only
    split
    · split
      · next last => exact ⟨column, below last⟩
      · exact ⟨column, hy⟩
    · exact ⟨column, hy⟩

end Illinix.Verified.Terminal
