import Illinix.Verified.Cfs.Links

/-! # Insertion

A new node is linked in as a red leaf.  The loop of `rb_insert_color` keeps one thing true: the
tree is balanced but for the node it stands at, which is red and may have a red parent.  Each
turn either moves the two red nodes two levels up or ends with one or two rotations.  None of
this changes the order of the nodes. -/

namespace Illinix.Verified.Cfs

open Kernel
open Lib (Side Color)
open Lib.RedBlack

variable {t : RbTree} {T a b s U : ColorTree Nat} {path : List (Frame Nat)} {p : Option Nat}
  {g v x y : Nat} {c k : Color} {d f : Side} {n : Nat} {l : List Nat}

/-- The operation succeeds, and leaves a balanced tree with the nodes `l` in this order. -/
def Rebuilt (r : Option RbTree) (l : List Nat) : Prop :=
  ∃ u U n, r = some u ∧ Stored u U ∧ Balanced U .black n ∧ U.inorder = l

/-! ## Looking around -/

theorem isBlack_root (h : Links t p T) : t.isBlack T.root = decide (T.color = .black) := by
  cases T with
  | leaf => rfl
  | node c l x r =>
    show decide (t.color x = .black) = _
    rw [h.2.1]
    rfl

theorem side_found (near : t.child d g = p) (far : t.child d.other g ≠ p) :
    (if t.left g = p then Side.left else .right) = d := by
  cases d with
  | left => exact if_pos near
  | right => exact if_neg far

namespace At

theorem sibling (h : At t T (⟨d, c, x, s⟩ :: path)) : At t s (⟨d.other, c, x, T⟩ :: path) := by
  have up : At t (.join d c T x s) path := at_wrap.mpr h
  rw [← ColorTree.join_other] at up
  exact at_wrap.mp up

/-! The nodes around a place change colour as the one at the place does. -/

theorem setColor_above (h : At t T (⟨d, c, x, s⟩ :: path)) (k : Color) :
    At (t.setColor x k) T (⟨d, k, x, s⟩ :: path) := by
  have up : At t (.join d c T x s) path := at_wrap.mpr h
  exact at_wrap.mp (up.setColor k)

theorem setColor_sibling (h : At t T (⟨d, c, x, .join f k a y b⟩ :: path)) (l : Color) :
    At (t.setColor y l) T (⟨d, c, x, .join f l a y b⟩ :: path) := by
  have back := (h.sibling.setColor l).sibling
  rw [other_other] at back
  exact back

theorem setColor_far (h : At t (.join d c T x (.join f k a y b)) path) (l : Color) :
    At (t.setColor y l) (.join d c T x (.join f l a y b)) path := by
  have below : At t T (⟨d, c, x, .join f k a y b⟩ :: path) := at_wrap.mp h
  exact at_wrap.mpr (below.setColor_sibling l)

/-- What is stored at a place does not occur beside it. -/
theorem root_ne (h : At t T (⟨d, c, x, s⟩ :: path)) (root : T.root = some y) :
    s.root ≠ some y := by
  intro same
  exact h.apart (root_mem root) ((mem_outside_cons _ _).mpr (.inr (.inl (root_mem same))))

theorem parent_fields (h : At t T (⟨d, c, x, s⟩ :: path)) : t.parent x = above path ∧
    t.color x = c ∧ t.child d x = T.root ∧ t.child d.other x = s.root := by
  obtain ⟨parent, color, near, far, -, -⟩ := h.around
  exact ⟨parent, color, near, far⟩

theorem parent_of_root (h : At t T path) (root : T.root = some x) : t.parent x = above path := by
  cases T with
  | leaf => cases root
  | node c l y r =>
    cases root
    exact h.here.1

end At

/-! ## The new leaf -/

/-- The pointer to a place. -/
def linkTo : List (Frame Nat) → RbTree.Link
  | [] => .root
  | f :: _ => .child f.value f.side

theorem At.follow (h : At t T path) : t.follow (linkTo path) = T.root := by
  cases path with
  | nil => exact h.around
  | cons f path => exact h.parent_fields.2.2.1

theorem At.linkNode (h : At t .leaf path) (fresh : x ∉ outside path) :
    At (t.linkNode x (linkTo path)) (.node .red .leaf x .leaf) path := by
  -- the fields of the new node, before the pointer to it is written
  let u := (((t.setParent x (above path)).setColor x .red).setChild .right x none).setChild
    .left x none
  have same {z : Nat} (ne : z ≠ x) : SameAt t u z :=
    (((SameAt.setParent ne).trans (.setColor ne)).trans (.setChild ne)).trans (.setChild ne)
  have fields : u.parent x = above path ∧ u.color x = .red ∧ u.left x = none ∧
      u.right x = none := by
    simp [u, RbTree.setParent, RbTree.setColor, RbTree.setChild]
  have nodup : (x :: outside path).Nodup := List.nodup_cons.mpr ⟨fresh, h.nodup_outside⟩
  have around : Around u none path :=
    h.around.congr (t := t) rfl fun z hz => same fun eq => fresh (eq ▸ hz)
  cases path with
  | nil => exact ⟨⟨fields.1, fields.2.1, fields.2.2.1, fields.2.2.2, trivial, trivial⟩, rfl, nodup⟩
  | cons f path =>
    have apart := (outside_cons_perm f path).nodup_iff.mp (List.nodup_cons.mp nodup).2
    rw [List.nodup_cons, List.mem_append, not_or] at apart
    have away : x ≠ f.value := fun eq => fresh ((mem_outside_cons f path).mpr (.inl eq))
    obtain ⟨parent, color, near, far, sibling, rest⟩ := around
    have here : SameAt u (u.setChild f.side f.value (some x)) x := .setChild away
    refine ⟨⟨here.parent.trans fields.1, here.color.trans fields.2.1,
      (here.child .left).trans fields.2.2.1, (here.child .right).trans fields.2.2.2, trivial,
      trivial⟩, ?_, nodup⟩
    show Around (u.setChild f.side f.value (some x)) (some x) (f :: path)
    refine ⟨by simpa using parent, by simpa using color, by simp, by simpa using far,
      sibling.congr fun z hz => .setChild ?_, rest.congr (by simp) fun z hz => .setChild ?_⟩
    · exact fun eq => apart.1.1 (eq ▸ hz)
    · exact fun eq => apart.1.2 (eq ▸ hz)

/-! ## The loop -/

theorem insertColor_end (h : Stored t T) (root : T.root = some x) (balanced : Balanced T c n) :
    Rebuilt (t.root.map fun root => t.setColor root .black) T.inorder := by
  cases T with
  | leaf => cases root
  | node k l y r =>
    cases root
    have stored : At t (.join .left k l x r) [] := stored_plug.mp h
    refine ⟨t.setColor x .black, .node .black l x r, ?_⟩
    have painted : ∃ m, Balanced (.node .black l x r) .black m := by
      cases balanced with
      | red hl hr => exact ⟨_, .black hl hr⟩
      | black hl hr => exact ⟨_, .black hl hr⟩
    obtain ⟨m, black⟩ := painted
    refine ⟨m, ?_, stored_plug.mpr (stored.setColor .black), black, rfl⟩
    rw [h.root]
    rfl

/-- The last rotation: the node, its parent and its grandparent stand in one line. -/
theorem At.insertLine (h : At t T (⟨d, .red, v, s⟩ :: ⟨d, .black, g, U⟩ :: path)) :
    ∃ u, ((t.setColor v .black).setColor g .red).rotate d.other g = some u ∧
      At u T (⟨d, .black, v, .join d .red s g U⟩ :: path) := by
  have parent := h.setColor_above .black
  have gparent : At (t.setColor v .black) (.join d .black (.join d .black T v s) g U) path :=
    at_wrap.mpr (at_wrap.mpr parent)
  have turned : At ((t.setColor v .black).setColor g .red)
      (.join d.other .red U g (.join d.other .black s v T)) path := by
    rw [ColorTree.join_other, ColorTree.join_other]
    exact gparent.setColor .red
  obtain ⟨u, done, result⟩ := turned.rotate
  rw [ColorTree.join_other, ColorTree.join_other] at result
  exact ⟨u, done, at_wrap.mp result⟩

/-- The case without a red uncle leaves a red node below a black one. -/
theorem At.insertRotate (h : At t T (⟨d, .red, v, s⟩ :: ⟨f, .black, g, U⟩ :: path))
    (root : T.root = some x) (balanced : Balanced T .red n) (sibling : Balanced s .black n)
    (uncle : Balanced U .black n) :
    ∃ u y V w W, t.insertRotate f x v g = some (y, u) ∧ V.root = some y ∧ Balanced V .red n ∧
      Balanced W .red n ∧ At u V (⟨f, .black, w, W⟩ :: path) ∧
      (plug V (⟨f, .black, w, W⟩ :: path)).inorder =
        (plug T (⟨d, .red, v, s⟩ :: ⟨f, .black, g, U⟩ :: path)).inorder := by
  obtain ⟨-, -, near, far⟩ := h.parent_fields
  cases eq_or_other f d with
  | inl line =>
    subst line
    obtain ⟨u, done, result⟩ := h.insertLine
    refine ⟨u, x, T, v, .join d .red s g U, ?_, root, balanced, .joinRed sibling uncle, result, ?_⟩
    · simp [RbTree.insertRotate, far, h.root_ne root, done]
    · rw [inorder_plug, inorder_plug]
      cases d <;> simp [before, after, ColorTree.join, ColorTree.inorder]
  | inr corner =>
    subst corner
    -- the node is an inner grandchild: turning its parent gives a line with the two exchanged
    obtain ⟨a, x', b, rfl, ha, hb⟩ := balanced.of_red f
    rw [ColorTree.root_join, Option.some_inj] at root
    subst root
    have parent : At t (.join f.other .red (.join f .red a x' b) v s)
      (⟨f, .black, g, U⟩ :: path) := at_wrap.mpr h
    rw [ColorTree.join_other] at parent
    obtain ⟨t', turned, line⟩ := parent.rotate
    obtain ⟨u, done, result⟩ := (at_wrap.mp line :
      At t' (.join f .red s v a) (⟨f, .red, x', b⟩ :: ⟨f, .black, g, U⟩ :: path)).insertLine
    refine ⟨u, v, .join f .red s v a, x', .join f .red b g U, ?_, ColorTree.root_join .., .joinRed sibling ha,
      .joinRed hb uncle, result, ?_⟩
    · simp [RbTree.insertRotate, near, turned, done]
    · rw [inorder_plug, inorder_plug]
      cases f <;> simp [before, after, ColorTree.join, ColorTree.inorder, Side.other]

/-- A red uncle: the two red nodes move two levels up. -/
theorem At.insertRecolor (h : At t T (⟨d, .red, v, s⟩ :: ⟨f, .black, g, .join f .red a y b⟩ :: path)) :
    At (((t.setColor y .black).setColor v .black).setColor g .red)
      (.join f .red (.join d .black T v s) g (.join f .black a y b)) path := by
  have parent : At t (.join d .red T v s) (⟨f, .black, g, .join f .red a y b⟩ :: path) := at_wrap.mpr h
  have black := (parent.setColor_sibling .black).setColor .black
  exact at_wrap.mpr (black.setColor_above .red)

section

variable (h : At t T (⟨d, .red, v, s⟩ :: ⟨f, .black, g, U⟩ :: path)) (root : T.root = some x)

include h root

theorem At.insertColor_fields : t.parent x = some v ∧ t.parent v = some g ∧ t.color v = .red ∧
      (if t.left g = some v then Side.left else Side.right) = f ∧ t.child f.other g = U.root ∧
      t.isBlack U.root = decide (U.color = .black) := by
  have up : At t (.join d .red T v s) (⟨f, .black, g, U⟩ :: path) := at_wrap.mpr h
  obtain ⟨-, red, -, -⟩ := h.parent_fields
  obtain ⟨-, -, near, far⟩ := up.parent_fields
  rw [ColorTree.root_join] at near
  have side := side_found near (by rw [far]; exact up.root_ne (ColorTree.root_join ..))
  exact ⟨h.parent_of_root root, up.parent_of_root (ColorTree.root_join ..), red, side, far,
    isBlack_root up.sibling.here⟩

/-- One turn of the loop with a red uncle. -/
theorem At.insertColor_red {fuel : Nat} (uncle : U.root = some y) (redUncle : U.color = .red) :
    t.insertColor (fuel + 1) x =
      (((t.setColor y .black).setColor v .black).setColor g .red).insertColor fuel g := by
  obtain ⟨parent, gparent, red, side, far, black⟩ := h.insertColor_fields root
  rw [uncle] at far black
  rw [redUncle] at black
  simp [RbTree.insertColor, parent, red, gparent, side, far, black]

/-- One turn of the loop with a black uncle, or none. -/
theorem At.insertColor_black {fuel : Nat} (blackUncle : U.color = .black) :
    t.insertColor (fuel + 1) x = (t.insertRotate f x v g).bind fun r => r.2.insertColor fuel r.1 := by
  obtain ⟨parent, gparent, red, side, far, black⟩ := h.insertColor_fields root
  rw [blackUncle] at black
  cases uncle : U.root with
  | none =>
    rw [uncle] at far
    simp [RbTree.insertColor, parent, red, gparent, side, far]
  | some y =>
    simp [RbTree.insertColor, parent, red, gparent, side, far, black]

end

/-- The loop of `rb_insert_color`, by induction on its bound. -/
theorem insertColor_rebuilds {fuel : Nat} (enough : path.length < fuel) (h : At t T path)
    (root : T.root = some x) (balanced : Balanced T .red n) (fits : Fits path c n) :
    Rebuilt (t.insertColor fuel x) (plug T path).inorder := by
  induction fuel generalizing t T path x n c with
  | zero => cases enough
  | succ fuel ih =>
    have parent := h.parent_of_root root
    cases fits with
    | root =>
      rw [RbTree.insertColor, parent]
      exact insertColor_end (stored_plug.mpr h) root balanced
    | black sibling fits =>
      -- the parent is black: nothing is wrong any more
      obtain ⟨m, whole⟩ := (Fits.black sibling fits).plug balanced (fun top => nomatch top)
      obtain ⟨r, top⟩ := exists_root_plug root _
      rw [RbTree.insertColor, parent]
      simp only [above, List.head?_cons, Option.map_some]
      rw [if_neg (by simp [h.parent_fields.2.1])]
      exact insertColor_end (stored_plug.mpr h) top whole
    | @red d v s _ _ sibling fits =>
      -- the root is black, so a red parent has a parent of its own, and that one is black
      cases fits with
      | @black f g U path k _ _ uncle fits =>
        simp only [List.length_cons] at enough
        cases k with
        | red =>
          obtain ⟨a, y, b, rfl, ha, hb⟩ := uncle.of_red f
          rw [h.insertColor_red root (ColorTree.root_join ..) uncle.color_eq]
          have red : Balanced (.join f .red (.join d .black T v s) g (.join f .black a y b)) .red
              (n + 1) := .joinRed (.joinBlack balanced sibling) (.joinBlack ha hb)
          have rest := ih (by omega) h.insertRecolor (ColorTree.root_join ..) red fits
          have order : (plug (.join f .red (.join d .black T v s) g (.join f .black a y b))
              path).inorder = (plug T (⟨d, .red, v, s⟩ :: ⟨f, .black, g, .join f .red a y b⟩ ::
                path)).inorder := by
            apply inorder_plug_congr
            cases d <;> cases f <;> rfl
          rw [order] at rest
          exact rest
        | black =>
          obtain ⟨u, y, V, w, W, done, rootV, redV, redW, hV, order⟩ :=
            h.insertRotate root balanced sibling uncle
          have rest := ih (by simpa using (by omega : path.length + 1 < fuel)) hV rootV redV
            (.black redW fits)
          rw [order] at rest
          rw [h.insertColor_black root uncle.color_eq, done]
          exact rest

end Illinix.Verified.Cfs
