import Illinix.Verified.Cfs.Links
import Mathlib.Data.Nat.Bitwise

/-! # The parent and the colour in one word

The model of `rbtree.c` has a table for the parents and one for the colours; in memory both are in the word
`rb_parent_color`.  Nodes are aligned to four bytes, so that the macros of `rbtree.h` read and write the two
parts of the word as the tables say. -/

namespace Illinix.Verified.Cfs

open Kernel Function
open Lib (Color)

variable {words : Nat → Nat} {t : RbTree} {word x : Nat} {p q : Option Nat} {c : Color}

/-- A pointer to a node, or `NULL`. -/
def Aligned (p : Option Nat) : Prop := 4 ∣ p.getD 0

/-- `RB_RED` and `RB_BLACK` -/
def colorBit : Color → Nat
  | .red => 0
  | .black => 1

/-- The word holds this parent and this colour. -/
structure Packs (word : Nat) (p : Option Nat) (c : Color) : Prop where
  aligned : Aligned p
  word : word = p.getD 0 + colorBit c

theorem colorBit_lt (c : Color) : colorBit c < 2 := by
  cases c <;> decide

/-- On an aligned address `|` adds the colour. -/
theorem or_eq_add {a b : Nat} (aligned : 4 ∣ a) (small : b < 4) : a ||| b = a + b := by
  obtain ⟨k, rfl⟩ := aligned
  exact (Nat.two_pow_add_eq_or_of_lt (i := 2) small k).symm

namespace Packs

section

variable (h : Packs word p c)

include h

theorem rbParent : rbParent word = p.getD 0 := by
  have bit := colorBit_lt c
  obtain ⟨k, aligned⟩ := h.aligned
  rw [h.word, Kernel.rbParent]
  omega

theorem rbColor : rbColor word = colorBit c := by
  have bit := colorBit_lt c
  obtain ⟨k, aligned⟩ := h.aligned
  rw [h.word, Kernel.rbColor]
  omega

theorem rbSetParent (aligned : Aligned q) : Packs (rbSetParent word (q.getD 0)) q c := by
  refine ⟨aligned, ?_⟩
  have bit := colorBit_lt c
  obtain ⟨k, multiple⟩ := h.aligned
  have low : word % 4 = colorBit c := by
    rw [h.word]
    omega
  rw [Kernel.rbSetParent, low, Nat.lor_comm, or_eq_add aligned (by omega)]

theorem rbSetColor (k : Color) : Packs (rbSetColor word (colorBit k)) p k := by
  refine ⟨h.aligned, ?_⟩
  have bit := colorBit_lt c
  have bit' := colorBit_lt k
  have clear : word / 2 * 2 = p.getD 0 := by
    obtain ⟨m, multiple⟩ := h.aligned
    rw [h.word]
    omega
  rw [Kernel.rbSetColor, clear, or_eq_add h.aligned (by omega)]

theorem rbSetRed : Packs (rbSetRed word) p .red := by
  have red := h.rbSetColor .red
  rwa [Kernel.rbSetColor, colorBit, Nat.or_zero] at red

theorem rbSetBlack : Packs (rbSetBlack word) p .black := by
  refine ⟨h.aligned, ?_⟩
  rw [h.word, Kernel.rbSetBlack]
  cases c with
  | red => rw [colorBit, Nat.add_zero, or_eq_add h.aligned (by decide), colorBit]
  | black => rw [colorBit, ← or_eq_add h.aligned (by decide), Nat.lor_assoc, Nat.or_self]

end

/-- `rb_link_node` stores the parent alone, and the new node is red. -/
theorem link (aligned : Aligned p) : Packs (p.getD 0) p .red := ⟨aligned, rfl⟩

end Packs

/-! ## All nodes -/

/-- The words of the nodes hold the two tables. -/
def Represents (words : Nat → Nat) (t : RbTree) : Prop := ∀ x, Packs (words x) (t.parent x) (t.color x)

namespace Represents

/-- One word is written, and one entry of the tables. -/
theorem one {u : RbTree} (h : Represents words t) (here : Packs word (u.parent x) (u.color x))
    (parent : ∀ y ≠ x, u.parent y = t.parent y) (color : ∀ y ≠ x, u.color y = t.color y) :
    Represents (update words x word) u := by
  intro y
  by_cases same : y = x
  · subst same
    rwa [update_self]
  · rw [update_of_ne same, parent y same, color y same]
    exact h y

theorem setParent (h : Represents words t) (here : Packs word p (t.color x)) :
    Represents (update words x word) (t.setParent x p) := by
  apply h.one
  · simpa using here
  · exact fun y ne => update_of_ne ne ..
  · exact fun _ _ => rfl

theorem setColor (h : Represents words t) (here : Packs word (t.parent x) c) :
    Represents (update words x word) (t.setColor x c) := by
  apply h.one
  · simpa using here
  · exact fun _ _ => rfl
  · exact fun y ne => update_of_ne ne ..

theorem store (h : Represents words t) (here : Packs word p c) :
    Represents (update words x word) ((t.setParent x p).setColor x c) := by
  apply h.one
  · simpa using here
  · exact fun y ne => update_of_ne ne ..
  · exact fun y ne => update_of_ne ne ..

end Represents

/-! ## Sequences of writes -/

/-- A write of `rbtree.c` to the word of the node `x`: one of the macros, `rb_link_node`, or
    `node->rb_parent_color = old->rb_parent_color` in `rb_erase`. -/
inductive WordWrite where
  | parent (x : Nat) (p : Option Nat)
  | color (x : Nat) (c : Color)
  | red (x : Nat)
  | black (x : Nat)
  | link (x : Nat) (p : Option Nat)
  | copy (x old : Nat)

namespace WordWrite

def onWords (words : Nat → Nat) : WordWrite → Nat → Nat
  | parent x p => update words x (rbSetParent (words x) (p.getD 0))
  | color x c => update words x (rbSetColor (words x) (colorBit c))
  | red x => update words x (rbSetRed (words x))
  | black x => update words x (rbSetBlack (words x))
  | link x p => update words x (p.getD 0)
  | copy x old => update words x (words old)

def onTree (t : RbTree) : WordWrite → RbTree
  | parent x p => t.setParent x p
  | color x c => t.setColor x c
  | red x => t.setColor x .red
  | black x => t.setColor x .black
  | link x p => (t.setParent x p).setColor x .red
  | copy x old => (t.setParent x (t.parent old)).setColor x (t.color old)

/-- What becomes a parent is a node. -/
def Links : WordWrite → Prop
  | parent _ p | link _ p => Aligned p
  | color .. | red _ | black _ | copy .. => True

end WordWrite

theorem Represents.write (h : Represents words t) (w : WordWrite) (aligned : w.Links) :
    Represents (w.onWords words) (w.onTree t) := by
  -- every write changes one word, and the entries of one node
  cases w with
  | parent x p => exact h.setParent ((h x).rbSetParent aligned)
  | color x c => exact h.setColor ((h x).rbSetColor c)
  | red x => exact h.setColor (h x).rbSetRed
  | black x => exact h.setColor (h x).rbSetBlack
  | link x p => exact h.store (Packs.link aligned)
  | copy x old => exact h.store (h old)

/-- After any sequence of writes, `rb_parent` and `rb_color` read from the words what the two tables hold. -/
theorem packed_words_refine (h : Represents words t) {writes : List WordWrite}
    (aligned : ∀ w ∈ writes, w.Links) (x : Nat) :
    rbParent (writes.foldl WordWrite.onWords words x) = ((writes.foldl WordWrite.onTree t).parent x).getD 0 ∧
    rbColor (writes.foldl WordWrite.onWords words x) = colorBit ((writes.foldl WordWrite.onTree t).color x) := by
  have kept : Represents (writes.foldl WordWrite.onWords words) (writes.foldl WordWrite.onTree t) := by
    induction writes generalizing words t with
    | nil => exact h
    | cons w writes ih =>
      rw [List.forall_mem_cons] at aligned
      exact ih (h.write w aligned.1) aligned.2
  exact ⟨(kept x).rbParent, (kept x).rbColor⟩

/-- The node at 8 is linked below the one at 16 and becomes black. -/
theorem packed_words_refine_linked : rbParent (([.link 8 (some 16), .black 8] : List WordWrite).foldl
      WordWrite.onWords (fun _ => 0) 8) = 16 :=
  (packed_words_refine (t := ⟨none, fun _ => none, fun _ => .red, fun _ => none, fun _ => none⟩)
    (fun _ => ⟨⟨0, rfl⟩, rfl⟩) (by simp [WordWrite.Links, Aligned]) 8).1

end Illinix.Verified.Cfs
