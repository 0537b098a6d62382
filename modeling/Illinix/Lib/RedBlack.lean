import Mathlib.Algebra.Group.Nat.Defs
import Mathlib.Data.List.Nodup
import Mathlib.Data.List.Perm.Basic
import Mathlib.Data.Nat.Log

/-! # Red-black trees seen from one of their places

A place of a tree is what stands there and the path of frames from it up to the root;
`plug` puts the two together again.  A frame says on which side the path comes up, so that
an argument about one side is an argument about both.

`Balanced t c n` is the red-black invariant of a tree with a root of colour `c` and `n` black
nodes on every way down.  `Fits path c n` says the same of what surrounds a place: trees of
black height `n` fit there, below a node of colour `c`.  The root counts as the child of a
red node, because it has to be black. -/

namespace Illinix.Lib

inductive Side where
  | left
  | right
deriving DecidableEq, Repr

def Side.other : Side → Side
  | .left => .right
  | .right => .left

inductive Color where
  | red
  | black
deriving DecidableEq, Repr

namespace RedBlack

open scoped List

inductive ColorTree (α : Type*) where
  | leaf
  | node (color : Color) (left : ColorTree α) (value : α) (right : ColorTree α)

variable {α : Type*}

namespace ColorTree

def inorder : ColorTree α → List α
  | leaf => []
  | node _ l x r => l.inorder ++ x :: r.inorder

def root : ColorTree α → Option α
  | leaf => none
  | node _ _ x _ => some x

def color : ColorTree α → Color
  | leaf => .black
  | node c _ _ _ => c

/-- The number of nodes on the longest way down. -/
def depth : ColorTree α → Nat
  | leaf => 0
  | node _ l _ r => max l.depth r.depth + 1

/-- The node with `near` on side `d`. -/
def join (d : Side) (c : Color) (near : ColorTree α) (x : α) (far : ColorTree α) : ColorTree α :=
  match d with
  | .left => node c near x far
  | .right => node c far x near

section

variable (d : Side) (c : Color) (a : ColorTree α) (x : α)

include d c a x

@[simp] theorem root_join (b : ColorTree α) : (join d c a x b).root = some x := by
  cases d <;> rfl

@[simp] theorem color_join (b : ColorTree α) : (join d c a x b).color = c := by
  cases d <;> rfl

theorem join_other (b : ColorTree α) :
    join d.other c a x b = join d c b x a := by
  cases d <;> rfl

theorem inorder_join_perm (b : ColorTree α) :
    (join d c a x b).inorder.Perm (x :: (a.inorder ++ b.inorder)) := by
  cases d with
  | left => exact List.perm_middle
  | right => exact List.perm_middle.trans (.cons _ List.perm_append_comm)

end

theorem inorder_rotate (d : Side) (c k c' k' : Color) (a b e : ColorTree α) (x y : α) :
    (join d k' (join d c' a x b) y e).inorder = (join d c a x (join d k b y e)).inorder := by
  cases d <;> simp [join, inorder]

end ColorTree

/-! ## Places -/

/-- One step of the way up: the place is on side `side` of `value`. -/
structure Frame (α : Type*) where
  side : Side
  color : Color
  value : α
  sibling : ColorTree α

def Frame.wrap (f : Frame α) (t : ColorTree α) : ColorTree α :=
  .join f.side f.color t f.value f.sibling

/-- The tree with `t` at the place that `path` leads to. -/
def plug (t : ColorTree α) : List (Frame α) → ColorTree α
  | [] => t
  | f :: path => plug (f.wrap t) path

theorem plug_append (t : ColorTree α) (inner path : List (Frame α)) :
    plug t (inner ++ path) = plug (plug t inner) path := by
  induction inner generalizing t with
  | nil => rfl
  | cons f inner ih => exact ih (f.wrap t)

theorem exists_root_plug {t : ColorTree α} {x : α} (h : t.root = some x) (path : List (Frame α)) :
    ∃ y, (plug t path).root = some y := by
  induction path generalizing t x with
  | nil => exact ⟨x, h⟩
  | cons f path ih => exact ih (ColorTree.root_join f.side f.color t f.value f.sibling)

/-- What comes before the place. -/
def before : List (Frame α) → List α
  | [] => []
  | f :: path =>
    match f.side with
    | .left => before path
    | .right => before path ++ f.sibling.inorder ++ [f.value]

/-- What comes after the place. -/
def after : List (Frame α) → List α
  | [] => []
  | f :: path =>
    match f.side with
    | .left => f.value :: f.sibling.inorder ++ after path
    | .right => after path

theorem inorder_plug (t : ColorTree α) (path : List (Frame α)) :
    (plug t path).inorder = before path ++ t.inorder ++ after path := by
  induction path generalizing t with
  | nil => simp [plug, before, after]
  | cons f path ih =>
    obtain ⟨d, c, x, s⟩ := f
    cases d <;> simp [plug, Frame.wrap, before, after, ColorTree.join, ColorTree.inorder, ih]

/-- Trees with the same values in the same order can stand for each other. -/
theorem inorder_plug_congr {t u : ColorTree α} (same : t.inorder = u.inorder) (path : List (Frame α)) :
    (plug t path).inorder = (plug u path).inorder := by
  rw [inorder_plug, inorder_plug, same]

/-- What stands before and after the place. -/
def outside (path : List (Frame α)) : List α := before path ++ after path

@[simp] theorem outside_nil : outside ([] : List (Frame α)) = [] := rfl

theorem outside_cons_perm (f : Frame α) (path : List (Frame α)) :
    (outside (f :: path)).Perm (f.value :: (f.sibling.inorder ++ outside path)) := by
  obtain ⟨d, c, x, s⟩ := f
  cases d with
  | left =>
    calc before path ++ (x :: s.inorder ++ after path)
      _ = before path ++ x :: (s.inorder ++ after path) := by rw [List.cons_append]
      _ ~ x :: (before path ++ (s.inorder ++ after path)) := List.perm_middle
      _ = x :: (before path ++ s.inorder ++ after path) := by rw [List.append_assoc]
      _ ~ x :: (s.inorder ++ before path ++ after path) :=
        (List.perm_append_comm.append_right _).cons _
      _ = x :: (s.inorder ++ (before path ++ after path)) := by rw [List.append_assoc]
  | right =>
    calc before path ++ s.inorder ++ [x] ++ after path
      _ = before path ++ s.inorder ++ x :: after path := by simp
      _ ~ x :: (before path ++ s.inorder ++ after path) := List.perm_middle
      _ ~ x :: (s.inorder ++ before path ++ after path) :=
        (List.perm_append_comm.append_right _).cons _
      _ = x :: (s.inorder ++ (before path ++ after path)) := by rw [List.append_assoc]

theorem length_le_outside (path : List (Frame α)) : path.length ≤ (outside path).length := by
  induction path with
  | nil => exact Nat.le_refl _
  | cons f path ih =>
    rw [(outside_cons_perm f path).length_eq, List.length_cons, List.length_cons, List.length_append]
    omega

theorem length_inorder_plug (t : ColorTree α) (path : List (Frame α)) :
    (plug t path).inorder.length = t.inorder.length + (outside path).length := by
  rw [inorder_plug, outside, List.length_append, List.length_append, List.length_append]
  omega

/-- The first node of a tree is at the end of a path without anything before it. -/
theorem exists_first {t : ColorTree α} {y : α} (root : t.root = some y) (path : List (Frame α)) :
    ∃ c x b path', plug (.node c .leaf x b) path' = plug t path ∧ before path' = before path := by
  induction t generalizing path y with
  | leaf => cases root
  | node c a x b iha _ =>
    cases a with
    | leaf => exact ⟨c, x, b, path, rfl, rfl⟩
    | node k l z r => exact iha rfl (⟨.left, c, x, b⟩ :: path)

theorem exists_place {t : ColorTree α} {x : α} (mem : x ∈ t.inorder) (path : List (Frame α)) :
    ∃ c a b path', plug (.node c a x b) path' = plug t path := by
  induction t generalizing path with
  | leaf => cases mem
  | node c l y r ihl ihr =>
    rw [ColorTree.inorder, List.mem_append, List.mem_cons] at mem
    rcases mem with left | rfl | right
    · exact ihl left (⟨.left, c, y, r⟩ :: path)
    · exact ⟨c, l, r, path, rfl⟩
    · exact ihr right (⟨.right, c, y, l⟩ :: path)

/-! ## Balance -/

inductive Balanced : ColorTree α → Color → Nat → Prop where
  | leaf : Balanced .leaf .black 0
  | red {l r : ColorTree α} {x : α} {n : Nat} :
      Balanced l .black n → Balanced r .black n → Balanced (.node .red l x r) .red n
  | black {l r : ColorTree α} {x : α} {c k : Color} {n : Nat} :
      Balanced l c n → Balanced r k n → Balanced (.node .black l x r) .black (n + 1)

namespace Balanced

variable {t a b : ColorTree α} {x : α} {c k : Color} {n : Nat} {d : Side}

theorem color_eq (h : Balanced t c n) : t.color = c := by
  cases h <;> rfl

theorem joinRed (near : Balanced a .black n) (far : Balanced b .black n) :
    Balanced (.join d .red a x b) .red n := by
  cases d with
  | left => exact .red near far
  | right => exact .red far near

theorem joinBlack (near : Balanced a c n) (far : Balanced b k n) :
    Balanced (.join d .black a x b) .black (n + 1) := by
  cases d with
  | left => exact .black near far
  | right => exact .black far near

theorem of_joinRed (h : Balanced (.join d .red a x b) c n) :
    Balanced a .black n ∧ Balanced b .black n := by
  cases d with
  | left =>
    cases h with
    | red near far => exact ⟨near, far⟩
  | right =>
    cases h with
    | red far near => exact ⟨near, far⟩

theorem of_joinBlack (h : Balanced (.join d .black a x b) c n) :
    ∃ m k l, n = m + 1 ∧ Balanced a k m ∧ Balanced b l m := by
  cases d with
  | left =>
    cases h with
    | black near far => exact ⟨_, _, _, rfl, near, far⟩
  | right =>
    cases h with
    | black far near => exact ⟨_, _, _, rfl, near, far⟩

theorem of_red (d : Side) (h : Balanced t .red n) :
    ∃ a x b, t = .join d .red a x b ∧ Balanced a .black n ∧ Balanced b .black n := by
  cases h with
  | red hl hr =>
    cases d with
    | left => exact ⟨_, _, _, rfl, hl, hr⟩
    | right => exact ⟨_, _, _, rfl, hr, hl⟩

theorem of_black (d : Side) (h : Balanced t .black (n + 1)) :
    ∃ a x b c k, t = .join d .black a x b ∧ Balanced a c n ∧ Balanced b k n := by
  cases h with
  | black hl hr =>
    cases d with
    | left => exact ⟨_, _, _, _, _, rfl, hl, hr⟩
    | right => exact ⟨_, _, _, _, _, rfl, hr, hl⟩

/-- A way down has at most as many red nodes as black ones, and one more below a red root. -/
theorem depth_le (h : Balanced t c n) : t.depth ≤ 2 * n + if c = .red then 1 else 0 := by
  induction h with
  | leaf => exact Nat.zero_le _
  | red _ _ ihl ihr =>
    simp only [ColorTree.depth, reduceCtorEq, if_true, if_false] at ihl ihr ⊢
    omega
  | black _ _ ihl ihr =>
    simp only [ColorTree.depth, reduceCtorEq, if_false]
    split at ihl <;> split at ihr <;> omega

/-- A tree has at least the nodes of a full tree of its black nodes. -/
theorem two_pow_le (h : Balanced t c n) : 2 ^ n ≤ t.inorder.length + 1 := by
  induction h with
  | leaf => exact Nat.le_refl _
  | red _ _ ihl ihr =>
    simp only [ColorTree.inorder, List.length_append, List.length_cons]
    omega
  | black _ _ ihl ihr =>
    simp only [ColorTree.inorder, List.length_append, List.length_cons, Nat.pow_succ]
    omega

theorem depth_le_log (h : Balanced t .black n) : t.depth ≤ 2 * Nat.log 2 (t.inorder.length + 1) := by
  have black : n ≤ Nat.log 2 (t.inorder.length + 1) := Nat.le_log_of_pow_le Nat.one_lt_two h.two_pow_le
  have depth : t.depth ≤ 2 * n := h.depth_le
  omega

end Balanced

inductive Fits : List (Frame α) → Color → Nat → Prop where
  | root {n : Nat} : Fits [] .red n
  | red {d : Side} {x : α} {s : ColorTree α} {path : List (Frame α)} {n : Nat} :
      Balanced s .black n → Fits path .black n → Fits (⟨d, .red, x, s⟩ :: path) .red n
  | black {d : Side} {x : α} {s : ColorTree α} {path : List (Frame α)} {c k : Color} {n : Nat} :
      Balanced s c n → Fits path k (n + 1) → Fits (⟨d, .black, x, s⟩ :: path) .black n

/-- The tree around a place is balanced when what stands there is, and is not red below red. -/
theorem Fits.plug {path : List (Frame α)} {t : ColorTree α} {c k : Color} {n : Nat}
    (around : Fits path k n) (h : Balanced t c n) (alternate : k = .red → c = .black) :
    ∃ m, Balanced (plug t path) .black m := by
  induction around generalizing t c with
  | root =>
    cases alternate rfl
    exact ⟨_, h⟩
  | red sibling _ ih =>
    cases alternate rfl
    exact ih (.joinRed h sibling) (fun top => nomatch top)
  | black sibling _ ih => exact ih (.joinBlack h sibling) (fun _ => rfl)

theorem Fits.relabel {path : List (Frame α)} {f : Frame α} {k : Color} {n : Nat} {inner : List (Frame α)}
    (around : Fits (inner ++ f :: path) k n) (x : α) : Fits (inner ++ { f with value := x } :: path) k n := by
  induction inner generalizing k n with
  | nil =>
    cases around with
    | red sibling fits => exact .red sibling fits
    | black sibling fits => exact .black sibling fits
  | cons g inner ih =>
    cases around with
    | red sibling fits => exact .red sibling (ih fits)
    | black sibling fits => exact .black sibling (ih fits)

theorem Balanced.unplug {path : List (Frame α)} {t : ColorTree α} {m : Nat}
    (h : Balanced (RedBlack.plug t path) .black m) :
    ∃ c k n, Balanced t c n ∧ Fits path k n ∧ (k = .red → c = .black) := by
  induction path generalizing t with
  | nil => exact ⟨.black, .red, m, h, .root, fun _ => rfl⟩
  | cons f path ih =>
    obtain ⟨d, color, x, s⟩ := f
    obtain ⟨c, k, n, here, around, alternate⟩ := ih h
    have colors : color = c := (ColorTree.color_join d color t x s).symm.trans here.color_eq
    subst colors
    cases color with
    | red =>
      obtain ⟨near, far⟩ := here.of_joinRed
      cases k with
      | red => cases alternate rfl
      | black => exact ⟨.black, .red, n, near, .red far around, fun _ => rfl⟩
    | black =>
      obtain ⟨m, c, l, rfl, near, far⟩ := here.of_joinBlack
      exact ⟨c, .black, m, near, .black far around, fun top => nomatch top⟩

end RedBlack

end Illinix.Lib
