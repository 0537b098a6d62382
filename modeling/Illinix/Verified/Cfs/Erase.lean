import Illinix.Verified.Cfs.Insert

/-! # Removal

The run queue removes its first node, which has no left child: its right child takes its place.
If the node was black, the place it leaves is one black node short.  The loop of
`__rb_erase_color` moves this place up until a red node can turn black or a rotation makes up for
it.  As in insertion, the order of the nodes stays. -/

namespace Illinix.Verified.Cfs

open Kernel
open Lib (Side Color)
open Lib.RedBlack

variable {t : RbTree} {T a b r s U : ColorTree Nat} {path : List (Frame Nat)} {p : Option Nat}
  {g v x y : Nat} {c k l : Color} {d : Side} {n : Nat} {e q : Option Nat} {fuel z : Nat}

/-! ## The end of the loop -/

theorem At.eraseEnd_black (h : At t T path) (black : T.color = .black) :
    At (t.eraseEnd T.root) T path := by
  cases T with
  | leaf => exact h
  | node c l x r =>
    cases black
    exact At.setColor (d := .left) h .black

theorem At.eraseColor_red (h : At t (.join d .red a x b) path)
    (near : Balanced a k n) (far : Balanced b l n) (fits : Fits path c (n + 1)) :
    Rebuilt (t.eraseColor (fuel + 1) (some x) p) (plug (.join d .red a x b) path).inorder := by
  obtain ⟨m, whole⟩ := fits.plug (.joinBlack near far) (fun _ => rfl)
  refine ⟨_, _, m, ?_, stored_plug.mpr (h.setColor .black), whole, ?_⟩
  · have red : t.isBlack (some x) = false := by
      simp [RbTree.isBlack, h.fields.2.1]
    simp [RbTree.eraseColor, RbTree.eraseEnd, red]
  · apply inorder_plug_congr
    cases d <;> rfl

/-! ## One turn of the loop -/

theorem Around.root_mem {hole : Option Nat} {f : Frame Nat} (h : Around t hole (f :: path)) :
    ∃ r ∈ outside (f :: path), t.root = some r := by
  induction path generalizing hole f with
  | nil => exact ⟨f.value, (mem_outside_cons f []).mpr (.inl rfl), h.2.2.2.2.2⟩
  | cons g path ih =>
    obtain ⟨r, mem, root⟩ := ih h.2.2.2.2.2
    exact ⟨r, (mem_outside_cons f _).mpr (.inr (.inr mem)), root⟩

theorem At.root_ne_root (h : At t T (⟨d, c, x, s⟩ :: path)) : T.root ≠ t.root := by
  obtain ⟨r, mem, root⟩ := h.around.root_mem
  intro same
  exact h.apart (Cfs.root_mem (same.trans root)) mem

theorem At.color_of_root (h : At t T path) (root : T.root = some x) : t.color x = T.color := by
  cases T with
  | leaf => cases root
  | node c l y r =>
    cases root
    exact h.here.2.1

theorem At.isBlack_children (h : At t (.join d c a x b) path) :
    t.isBlack (t.child d x) = decide (a.color = .black) ∧
      t.isBlack (t.child d.other x) = decide (b.color = .black) := by
  obtain ⟨-, -, near, far, ha, hb⟩ := links_join.mp h.here
  rw [near, far]
  exact ⟨isBlack_root ha, isBlack_root hb⟩

theorem exists_root (h : Balanced T c (n + 1)) : ∃ x, T.root = some x := by
  cases h with
  | red _ _ => exact ⟨_, rfl⟩
  | black _ _ => exact ⟨_, rfl⟩

/-- After the first part of a turn the sibling is black. -/
theorem At.eraseRedSibling (h : At t T (⟨d, c, v, s⟩ :: path)) (root : s.root = some y)
    (sibling : Balanced s k (n + 1)) (fits : Fits (⟨d, c, v, s⟩ :: path) c (n + 1)) :
    ∃ u y' c' s' path', t.eraseRedSibling d v y = some (y', u) ∧ s'.root = some y' ∧
      Balanced s' .black (n + 1) ∧ At u T (⟨d, c', v, s'⟩ :: path') ∧
      Fits (⟨d, c', v, s'⟩ :: path') c' (n + 1) ∧
      (plug T (⟨d, c', v, s'⟩ :: path')).inorder = (plug T (⟨d, c, v, s⟩ :: path)).inorder ∧
      (c' = .black → path' = path) := by
  have color : t.color y = k := (h.sibling.color_of_root root).trans sibling.color_eq
  cases k with
  | black =>
    refine ⟨t, y, c, s, path, ?_, root, sibling, h, fits, rfl, fun _ => rfl⟩
    simp [RbTree.eraseRedSibling, color]
  | red =>
    obtain ⟨a, y', b, rfl, ha, hb⟩ := sibling.of_red d
    rw [ColorTree.root_join, Option.some_inj] at root
    subst root
    cases fits with
    | red black _ => cases black.color_eq.symm.trans sibling.color_eq
    | black _ fits =>
      have parent := (h.setColor_sibling .black).setColor_above .red
      obtain ⟨u, turned, result⟩ := (at_wrap.mpr parent).rotate
      have place : At u T (⟨d, .red, v, a⟩ :: ⟨d, .black, y', b⟩ :: path) := at_wrap.mp (at_wrap.mp result)
      obtain ⟨z, rootA⟩ := exists_root ha
      refine ⟨u, z, .red, a, ⟨d, .black, y', b⟩ :: path, ?_, rootA, ha, place,
        .red ha (.black hb fits), ?_, fun top => nomatch top⟩
      · simp [RbTree.eraseRedSibling, color, turned, place.parent_fields.2.2.2, rootA]
      · rw [inorder_plug, inorder_plug]
        cases d <;> simp [before, after, ColorTree.join, ColorTree.inorder]

theorem Fits.plug_join (fits : Fits (⟨d, c, v, s⟩ :: path) c n) (near : Balanced a .black n)
    (far : Balanced b .black n) : ∃ m, Balanced (plug (.join d c a y b) path) .black m := by
  cases fits with
  | red _ fits => exact fits.plug (.joinRed near far) (fun top => nomatch top)
  | black _ fits => exact fits.plug (.joinBlack near far) (fun _ => rfl)

/-- The last rotation: the child of the sibling away from the place is red. -/
theorem At.eraseLine (h : At t T (⟨d, c, v, .join d .black a y (.join d .red b x s)⟩ :: path)) :
    ∃ u, (((t.setColor y (t.color v)).setColor v .black).setColor x .black).rotate d v = some u ∧
      At u (.join d c (.join d .black T v a) y (.join d .black b x s)) path := by
  have parent := (h.setColor_sibling c).setColor_above .black
  have painted := (parent.sibling.setColor_far .black).sibling
  rw [other_other] at painted
  rw [h.parent_fields.2.1]
  exact (at_wrap.mpr painted).rotate

/-- The end of the loop at a black sibling with a red child. -/
theorem At.eraseRotate (h : At t T (⟨d, c, v, .join d .black a y b⟩ :: path))
    (short : Balanced T .black n) (near : Balanced a k n) (far : Balanced b l n)
    (red : ¬(k = .black ∧ l = .black)) (fits : Fits (⟨d, c, v, s⟩ :: path) c (n + 1)) :
    ∃ u V m, t.eraseRotate d v y = some u ∧ At u V path ∧ Balanced (plug V path) .black m ∧
      V.inorder = (ColorTree.join d c T v (.join d .black a y b)).inorder := by
  obtain ⟨-, -, nearY, farY⟩ := h.sibling.fields
  have black := h.sibling.isBlack_children.2
  rw [far.color_eq] at black
  cases l with
  | red =>
    obtain ⟨b, x, e, rfl, hb, he⟩ := far.of_red d
    obtain ⟨u, done, result⟩ := h.eraseLine
    obtain ⟨m, whole⟩ := Fits.plug_join fits (.joinBlack short near) (.joinBlack hb he)
    refine ⟨u, _, m, ?_, result, whole, ?_⟩
    · rw [ColorTree.root_join] at farY
      rw [farY] at black
      simp [RbTree.eraseRotate, black, farY, done]
    · cases d <;> simp [ColorTree.join, ColorTree.inorder]
  | black =>
    cases k with
    | black => exact absurd ⟨rfl, rfl⟩ red
    | red =>
      -- the red child is the near one: turning the sibling puts a red node on the far side
      obtain ⟨e, z, g, rfl, he, hg⟩ := near.of_red d.other
      have sibling : At t (.join d.other .black b y (.join d.other .red e z g))
          (⟨d.other, c, v, T⟩ :: path) := by
        rw [ColorTree.join_other d .black]
        exact h.sibling
      obtain ⟨t', turned, result⟩ := ((sibling.setColor_far .black).setColor .red).rotate
      rw [ColorTree.join_other, ColorTree.join_other] at result
      have line := result.sibling
      rw [other_other] at line
      obtain ⟨u, done, final⟩ := line.eraseLine
      obtain ⟨m, whole⟩ := Fits.plug_join fits (.joinBlack short hg) (.joinBlack he far)
      refine ⟨u, _, m, ?_, final, whole, ?_⟩
      · have next : t'.child d.other v = some z := by
          rw [line.parent_fields.2.2.2, ColorTree.root_join]
        have farZ : t'.child d.other z = some y := by
          rw [result.fields.2.2.2, ColorTree.root_join]
        simp [RbTree.eraseRotate, black, nearY, turned, next, farZ, done]
      · cases d <;> simp [ColorTree.join, ColorTree.inorder, Side.other]

/-! ## The loop -/

/-- One turn at a place below the root. -/
theorem At.eraseColor_turn (h : At t T (⟨d, c, v, s⟩ :: path))
    (black : T.color = .black) (root : s.root = some y) :
    t.eraseColor (fuel + 1) T.root (some v) = (t.eraseRedSibling d v y).bind fun r =>
      if r.2.isBlack (r.2.child d r.1) ∧ r.2.isBlack (r.2.child d.other r.1) then
        let t := r.2.setColor r.1 .red
        t.eraseColor fuel (some v) (t.parent v)
      else (r.2.eraseRotate d v r.1).bind fun t => some (t.eraseEnd t.root) := by
  obtain ⟨-, -, near, far⟩ := h.parent_fields
  have apart : t.child d.other v ≠ T.root := by
    rw [far, root]
    intro same
    exact h.root_ne same.symm root
  have goOn : t.isBlack T.root = true ∧ T.root ≠ t.root :=
    ⟨by simp [isBlack_root h.here, black], h.root_ne_root⟩
  have side := side_found near apart
  rw [RbTree.eraseColor, if_pos goOn]
  simp only [Option.bind_eq_bind, Option.bind_some, side, far, root]
  congr 1
  funext r
  obtain ⟨other, u⟩ := r
  cases d with
  | left => rfl
  | right =>
    simp only [and_comm (a := u.isBlack (u.left other) = true)]
    rfl

/-- The loop of `__rb_erase_color`, by induction on its bound. -/
theorem eraseColor_rebuilds (enough : path.length < fuel) (h : At t T path)
    (short : Balanced T .black n) (fits : Fits path c (n + 1)) :
    Rebuilt (t.eraseColor fuel T.root (above path)) (plug T path).inorder := by
  induction fuel generalizing t T path n c with
  | zero => cases enough
  | succ fuel ih =>
    cases path with
    | nil =>
      have root : ¬(t.isBlack T.root = true ∧ T.root ≠ t.root) := fun more => more.2 h.around.symm
      rw [RbTree.eraseColor, if_neg root]
      exact ⟨_, T, n, rfl, stored_plug.mpr (h.eraseEnd_black short.color_eq), short, rfl⟩
    | cons f path =>
      obtain ⟨d, color, v, s⟩ := f
      have same : c = color := by
        cases fits <;> rfl
      subst same
      have sibling : ∃ k, Balanced s k (n + 1) := by
        cases fits with
        | red sibling _ => exact ⟨_, sibling⟩
        | black sibling _ => exact ⟨_, sibling⟩
      obtain ⟨k, sibling⟩ := sibling
      obtain ⟨y, root⟩ := exists_root sibling
      obtain ⟨u, y', c', s', path', first, root', black, h', fits', order, shorter⟩ :=
        h.eraseRedSibling root sibling fits
      obtain ⟨a, z, b, ka, kb, rfl, ha, hb⟩ := black.of_black d
      rw [ColorTree.root_join, Option.some_inj] at root'
      subst root'
      have children := h'.sibling.isBlack_children
      rw [ha.color_eq, hb.color_eq] at children
      show Rebuilt (t.eraseColor (fuel + 1) T.root (some v)) _
      rw [h.eraseColor_turn short.color_eq root, first, ← order]
      simp only [Option.bind_some, children, decide_eq_true_eq]
      simp only [List.length_cons] at enough
      split
      · next both =>
        -- both children of the sibling are black: it turns red and the place moves up
        obtain ⟨rfl, rfl⟩ := both
        have painted := h'.setColor_sibling .red
        have up := at_wrap.mpr painted
        have recolored : (plug (.join d c' T v (.join d .red a z b)) path').inorder =
            (plug T (⟨d, c', v, .join d .black a z b⟩ :: path')).inorder := by
          apply inorder_plug_congr
          cases d <;> rfl
        rw [painted.parent_fields.1, ← recolored]
        cases fits' with
        | red _ fits' =>
          -- after a red sibling the parent is red, and turns black in the next turn
          cases fuel with
          | zero => omega
          | succ fuel => exact up.eraseColor_red short (.joinRed ha hb) fits'
        | black _ fits' =>
          obtain rfl := shorter rfl
          have higher := ih (by omega) up (.joinBlack short (.joinRed ha hb)) fits'
          rw [Frame.wrap, ColorTree.root_join] at higher
          exact higher
      · next red =>
        obtain ⟨w, V, m, done, hV, whole, sameOrder⟩ := h'.eraseRotate short ha hb red fits'
        have stored : Stored w (plug V path') := stored_plug.mpr hV
        have top := (stored_iff.mp stored).eraseEnd_black whole.color_eq
        refine ⟨_, plug V path', m, ?_, stored_iff.mpr top, whole, inorder_plug_congr sameOrder path'⟩
        simp [done, stored.root]

/-! ## A node with at most one child -/

/-- A node without a child on side `d` leaves its place to its other child. -/
theorem At.unlink (h : At t (.join d c .leaf x r) path) :
    At ((t.adopt r.root (above path)).replaceChild (above path) .left x r.root) r path := by
  obtain ⟨-, -, -, -, -, links⟩ := links_join.mp h.here
  have perm : (ColorTree.join d c .leaf x r).inorder.Perm (x :: r.inorder) :=
    ColorTree.inorder_join_perm d c .leaf x r
  have inside (z : Nat) (hz : z = x ∨ z ∈ r.inorder) : z ∉ outside path :=
    h.apart (perm.mem_iff.mpr (List.mem_cons.mpr hz))
  have distinct : x ∉ r.inorder ∧ r.inorder.Nodup := List.nodup_cons.mp (perm.nodup_iff.mp h.nodup_here)
  have around : Around (t.adopt r.root (above path)) (some x) path := by
    have around := h.around
    rw [ColorTree.root_join] at around
    refine around.congr adopt_root fun z hz => .adopt fun same => ?_
    exact inside z (.inr (root_mem same)) hz
  refine ⟨?_, around.replaceChild h.nodup_outside (inside x (.inl rfl)) .left, ?_⟩
  · refine (links.adopt distinct.2).congr fun z hz => .replaceChild fun same => ?_
    exact inside z (.inr hz) (above_mem same)
  · have nodup : (x :: r.inorder ++ outside path).Nodup := (perm.append_right _).nodup_iff.mp h.nodup
    exact (List.nodup_cons.mp nodup).2

/-- The colours are corrected after a node of colour `c` has left its place to its child. -/
theorem short_rebuilds (enough : path.length < fuel) (h : At t r path)
    (here : Balanced (.join d c .leaf x r) k n) (fits : Fits path l n) (alternate : l = .red → k = .black) :
    Rebuilt (if c = .black then t.eraseColor fuel r.root (above path) else some t) (plug r path).inorder := by
  cases c with
  | red =>
    -- without black nodes below it, a red node is the only one at its place
    obtain rfl : k = .red := here.color_eq.symm.trans (ColorTree.color_join ..)
    obtain ⟨-, hr⟩ := here.of_joinRed
    cases l with
    | red => cases alternate rfl
    | black =>
      obtain ⟨m, whole⟩ := fits.plug hr (fun top => nomatch top)
      exact ⟨_, _, m, rfl, stored_plug.mpr h, whole, rfl⟩
  | black =>
    obtain ⟨m, _, kr, rfl, -, hr⟩ := here.of_joinBlack
    show Rebuilt (RbTree.eraseColor _ _ _ _) _
    cases kr with
    | black => exact eraseColor_rebuilds enough h hr fits
    | red =>
      obtain ⟨a, y, b, rfl, ha, hb⟩ := hr.of_red .left
      cases fuel with
      | zero => cases enough
      | succ fuel => exact h.eraseColor_red ha hb fits

theorem At.erase_eq (h : At t (.join d c .leaf x r) path) : t.erase fuel x =
      let u := (t.adopt r.root (above path)).replaceChild (above path) .left x r.root
      if c = .black then u.eraseColor fuel r.root (above path) else some u := by
  obtain ⟨parent, color, near, far⟩ := h.fields
  cases d with
  | left =>
    have left : t.left x = none := near
    have right : t.right x = r.root := far
    simp [RbTree.erase, left, right, parent, color]
  | right =>
    have left : t.left x = r.root := far
    have right : t.right x = none := near
    have child : (if r.root = none then none else r.root) = r.root := by
      split
      · next empty => exact empty.symm
      · rfl
    simp [RbTree.erase, left, right, parent, color, child]

/-! ## A node with two children -/

theorem at_plug {inner : List (Frame Nat)} : At t (plug T inner) path ↔ At t T (inner ++ path) := by
  induction inner generalizing T with
  | nil => rfl
  | cons f inner ih => exact ih.trans at_wrap

theorem replaceChild_adopt {g : Option Nat} :
    (t.replaceChild p d x q).adopt e g = (t.adopt e g).replaceChild p d x q := by
  cases e with
  | none => rfl
  | some y =>
    cases p with
    | none => rfl
    | some z =>
      show (if t.child d z = some x then _ else _ : RbTree).setParent y g =
        if (t.setParent y g).child d z = some x then _ else _
      rw [setParent_child]
      split
      · cases d <;> rfl
      · cases d <;> rfl

theorem setChild_comm {f : Side} (ne : x ≠ y) :
    (t.setChild d x q).setChild f y e = (t.setChild f y e).setChild d x q := by
  cases d <;> cases f <;> simp [RbTree.setChild, Function.update_comm ne]

theorem replaceChild_setChild {f : Side} (ne : p ≠ some y) :
    (t.replaceChild p d x q).setChild f y e = (t.setChild f y e).replaceChild p d x q := by
  cases p with
  | none => cases f <;> rfl
  | some z =>
    have away : z ≠ y := fun same => ne (congrArg some same)
    have same := (SameAt.setChild (t := t) (d := f) (p := e) away).child d
    show (if t.child d z = some x then _ else _ : RbTree).setChild f y e =
      if (t.setChild f y e).child d z = some x then _ else _
    rw [same]
    split
    · exact setChild_comm away
    · exact setChild_comm away

/-- The node `z` with the subtrees `a` and `b`, written at the place that points to it. -/
def placeNode (t : RbTree) (up : Option Nat) (c : Color) (a : ColorTree Nat) (z : Nat) (b : ColorTree Nat) : RbTree :=
  (((((t.setChild .right z b.root).adopt b.root (some z)).setParent z up).setColor z c).setChild
    .left z a.root).adopt a.root (some z)

theorem at_placeNode (ha : Links t p a) (hb : Links t q b)
    (around : Around t (some z) path) (nodup : ((ColorTree.node c a z b).inorder ++ outside path).Nodup) :
    At (placeNode t (above path) c a z b) (.node c a z b) path := by
  have perm : (ColorTree.node c a z b).inorder.Perm (z :: (a.inorder ++ b.inorder)) := List.perm_middle
  have distinct := (perm.append_right (outside path)).nodup_iff.mp nodup
  simp only [List.cons_append, List.nodup_cons, List.mem_append, not_or, List.nodup_append] at distinct
  obtain ⟨⟨⟨za, zb⟩, zo⟩, ⟨anodup, bnodup, ab⟩, -, beyond⟩ := distinct
  -- the writes to the right side, to the node itself, and to the left side
  let t1 := t.setChild .right z b.root
  let t2 := t1.adopt b.root (some z)
  let t3 := ((t2.setParent z (above path)).setColor z c).setChild .left z a.root
  have node {y : Nat} (ne : y ≠ z) : SameAt t2 t3 y :=
    ((SameAt.setParent ne).trans (.setColor ne)).trans (.setChild ne)
  have zroot : a.root ≠ some z := fun same => za (root_mem same)
  have here : SameAt t3 (placeNode t (above path) c a z b) z := .adopt zroot
  refine ⟨⟨?_, ?_, ?_, ?_, ?_, ?_⟩, ?_, nodup⟩
  · rw [here.parent]
    simp [t3]
  · rw [here.color]
    simp [t3]
  · rw [here.child]
    simp [t3]
  · rw [here.child]
    show t3.child Side.left.other z = _
    simp only [t3, t2, t1, setChild_child_other, setColor_child, setParent_child, adopt_child]
    show (t.setChild .right z b.root).child .right z = _
    rw [setChild_child, Function.update_self]
  · have kept : Links t3 p a := by
      refine ha.congr fun y hy => ?_
      have ne : y ≠ z := fun same => za (same ▸ hy)
      refine (SameAt.setChild ne).trans ((SameAt.adopt fun same => ?_).trans (node ne))
      exact ab y hy y (root_mem same) rfl
    exact kept.adopt anodup
  · have moved : Links t2 (some z) b := by
      refine (hb.congr fun y hy => .setChild ?_ : Links t1 q b).adopt bnodup
      exact fun same => zb (same ▸ hy)
    refine moved.congr fun y hy => ?_
    refine (node fun same => zb (same ▸ hy)).trans (.adopt fun same => ?_)
    exact ab y (root_mem same) y hy rfl
  · refine around.congr (by simp [placeNode]) fun y hy => ?_
    have ne : y ≠ z := fun same => zo (same ▸ hy)
    refine (SameAt.setChild ne).trans ((SameAt.adopt fun same => ?_).trans ((node ne).trans (.adopt fun same => ?_)))
    · exact beyond y (.inr (root_mem same)) y hy rfl
    · exact beyond y (.inl (root_mem same)) y hy rfl

/-- The successor stands at the end of a way to the left. -/
theorem side_of_first {f : Frame Nat} (first : before (f :: path) = []) : f.side = .left := by
  obtain ⟨d, c, x, s⟩ := f
  cases d with
  | left => rfl
  | right => simp [before] at first

/-- The last writes of `eraseSuccessor`: the node `z` takes over what the node `x` had. -/
def takeOver (t : RbTree) (x z : Nat) : Option RbTree := do
  let t := (t.setParent z (t.parent x)).setColor z (t.color x)
  let t := t.setChild .left z (t.left x)
  return t.setParent (← t.left x) (some z)

theorem takeOver_eq (ne : x ≠ z) (parent : t.parent x = p) (color : t.color x = c)
    (left : t.left x = some y) (root : a.root = some y) :
    takeOver t x z = some ((((t.setParent z p).setColor z c).setChild .left z a.root).adopt a.root (some z)) := by
  have child : ((t.setParent z p).setColor z c).left x = some y := left
  have kept : (((t.setParent z p).setColor z c).setChild .left z (some y)).left x = some y :=
    ((SameAt.setChild ne).child .left).trans child
  simp [takeOver, parent, color, child, kept, root, RbTree.adopt]

theorem eraseSuccessor_near (parent : t.parent z = some x) : t.eraseSuccessor x z =
      let u := t.replaceChild (t.parent x) .left x (some z)
      (takeOver u x z).bind fun v => some (u.right z, z, v) := by
  have kept : (t.replaceChild (t.parent x) .left x (some z)).parent z = some x := by
    rw [replaceChild_parent, parent]
  simp [RbTree.eraseSuccessor, takeOver, kept, Option.bind_assoc]

theorem eraseSuccessor_far {v : Nat} (parent : t.parent z = some v) (ne : v ≠ x) : t.eraseSuccessor x z =
      let u := t.replaceChild (t.parent x) .left x (some z)
      let w := (u.adopt (u.right z) (some v)).setChild .left v (u.right z)
      let w := w.setChild .right z (w.right x)
      (w.right x).bind fun right =>
        (takeOver (w.setParent right (some z)) x z).bind fun t => some (u.right z, v, t) := by
  have kept : (t.replaceChild (t.parent x) .left x (some z)).parent z = some v := by
    rw [replaceChild_parent, parent]
  simp [RbTree.eraseSuccessor, takeOver, kept, ne, Option.bind_assoc]

section

variable {z : Nat} {inner : List (Frame Nat)}

theorem setChild_eq_self (same : t.child d x = p) : t.setChild d x p = t := by
  subst same
  cases d <;> simp [RbTree.setChild, RbTree.child]

theorem Links.adopt_eq_self (h : Links t p T) : t.adopt T.root p = t := by
  cases T with
  | leaf => rfl
  | node c l x r =>
    obtain ⟨rfl, -⟩ := h
    show t.setParent x (t.parent x) = t
    simp [RbTree.setParent]

theorem mem_outside_append : y ∈ outside (inner ++ path) ↔ y ∈ outside inner ∨ y ∈ outside path := by
  induction inner with
  | nil => simp
  | cons f inner ih => rw [List.cons_append, mem_outside_cons, mem_outside_cons, ih, or_assoc, or_assoc]

/-- The nodes that are left when the successor `z` has taken the place of `x`, and `x` itself. -/
theorem At.nodup_successor (h : At t (.node c a x (plug (.node k .leaf z r) inner)) path)
    (first : before inner = []) :
    (x :: ((ColorTree.node c a z (plug r inner)).inorder ++ outside path)).Nodup := by
  have nodup := h.nodup
  simp only [ColorTree.inorder, inorder_plug, first, List.nil_append] at nodup ⊢
  refine (List.Perm.nodup_iff ?_).mp nodup
  rw [List.append_assoc, List.append_assoc]
  exact List.perm_middle

theorem At.eraseSuccessor_near (h : At t (.node c a x (.node k .leaf z r)) path) (root : a.root = some y) :
    ∃ u, t.eraseSuccessor x z = some (r.root, z, u) ∧ At u r (⟨.right, c, z, a⟩ :: path) := by
  have nearest : before ([] : List (Frame Nat)) = [] := rfl
  obtain ⟨apart, nodup⟩ := List.nodup_cons.mp (h.nodup_successor nearest)
  obtain ⟨parent, color, left, right, ha, parentZ, -, -, rightZ, -, hr⟩ := h.here
  have beyond (v : Nat) (inside : v ∈ (ColorTree.node c a x (.node k .leaf z r)).inorder) :
      SameAt t (t.replaceChild (above path) .left x (some z)) v :=
    .replaceChild fun up => h.apart inside (above_mem up)
  have atX := beyond x (by simp [ColorTree.inorder])
  have atZ := beyond z (by simp [ColorTree.inorder])
  have around := h.around.replaceChild (q := some z) h.nodup_outside (h.apart (by simp [ColorTree.inorder])) .left
  have linksA := ha.congr fun v hv => beyond v (by simp [ColorTree.inorder, hv])
  have linksR := hr.congr fun v hv => beyond v (by simp [ColorTree.inorder, hv])
  have placed := at_placeNode linksA linksR around nodup
  have ne : x ≠ z := fun same => apart (by simp [ColorTree.inorder, same, plug])
  have took := takeOver_eq (a := a) ne (atX.parent.trans parent) (atX.color.trans color)
    ((atX.child .left).trans (left.trans root)) root
  -- the right child of `z` and its parent pointer are as they should be already
  rw [placeNode, setChild_eq_self ((atZ.child .right).trans rightZ), linksR.adopt_eq_self] at placed
  refine ⟨_, ?_, at_wrap.mp placed⟩
  rw [Cfs.eraseSuccessor_near parentZ, parent]
  have child : (t.replaceChild (above path) .left x (some z)).right z = r.root := (atZ.child .right).trans rightZ
  simp [took, child]

/-- The successor is further down: it leaves its place to its right child first. -/
theorem At.unlink_successor {f : Frame Nat} (h : At t (.node c a x (plug (.node k .leaf z r) (f :: inner))) path)
    (first : before (f :: inner) = []) :
    t.right z = r.root ∧ t.parent z = some f.value ∧ f.value ≠ x ∧ above path ≠ some f.value ∧
      At ((t.adopt r.root (some f.value)).setChild .left f.value r.root) (plug r (f :: inner))
        (⟨.right, c, x, a⟩ :: path) := by
  have below : At t (plug (.node k .leaf z r) (f :: inner)) (⟨.right, c, x, a⟩ :: path) := at_wrap.mp h
  have place : At t (.node k .leaf z r) (f :: (inner ++ ⟨.right, c, x, a⟩ :: path)) := at_plug.mp below
  obtain ⟨parentZ, -, -, rightZ, -, -⟩ := place.here
  obtain ⟨-, -, near, -⟩ := place.parent_fields
  have apart := (outside_cons_perm f (inner ++ ⟨.right, c, x, a⟩ :: path)).nodup_iff.mp place.nodup_outside
  rw [List.nodup_cons, List.mem_append, not_or, mem_outside_append, mem_outside_cons] at apart
  obtain ⟨⟨-, away⟩, -⟩ := apart
  have unlinked := (show At t (.join .left k .leaf z r) _ from place).unlink
  have written : (t.adopt r.root (some f.value)).replaceChild (some f.value) .left z r.root =
      (t.adopt r.root (some f.value)).setChild .left f.value r.root := by
    rw [side_of_first first] at near
    show (if _ then _ else _) = _
    rw [if_pos (by rw [adopt_child, near]; rfl)]
  refine ⟨rightZ, parentZ, fun same => away (.inr (.inl same)), ?_, at_plug.mpr ?_⟩
  · exact fun up => away (.inr (.inr (.inr (above_mem up))))
  · rw [← written]
    exact unlinked

theorem At.eraseSuccessor_far {f : Frame Nat} (h : At t (.node c a x (plug (.node k .leaf z r) (f :: inner))) path)
    (first : before (f :: inner) = []) (root : a.root = some y) :
    ∃ u, t.eraseSuccessor x z = some (r.root, f.value, u) ∧
      At u r (f :: inner ++ ⟨.right, c, z, a⟩ :: path) := by
  obtain ⟨apart, nodup⟩ := List.nodup_cons.mp (h.nodup_successor first)
  rw [List.mem_append, not_or] at apart
  obtain ⟨rightZ, parentZ, away, above, unlinked⟩ := h.unlink_successor first
  obtain ⟨w, rootB⟩ := exists_root_plug (ColorTree.root_join f.side f.color r f.value f.sibling) inner
  have rootB : (plug r (f :: inner)).root = some w := rootB
  have ne : x ≠ z := fun same => apart.1 (by simp [ColorTree.inorder, same])
  have wx : x ≠ w := fun same => apart.1 (by simp [ColorTree.inorder, same, root_mem rootB])
  have parentX : t.parent x = Cfs.above path := h.here.1
  have outer (v : Nat) (inside : v = x ∨ v ∈ (ColorTree.node c a z (plug r (f :: inner))).inorder) :
      v ∉ outside path := by
    cases inside with
    | inl same => exact same ▸ apart.2
    | inr inside => exact fun beyond => (List.nodup_append.mp nodup).2.2 v inside v beyond rfl
  have child : (t.replaceChild (Cfs.above path) .left x (some z)).right z = r.root := by
    have same : SameAt t (t.replaceChild (Cfs.above path) .left x (some z)) z :=
      .replaceChild fun up => outer z (.inr (by simp [ColorTree.inorder])) (above_mem up)
    exact (same.child .right).trans rightZ
  -- the pointer from above could as well be written after the successor has left its place
  have moved : ((t.replaceChild (Cfs.above path) .left x (some z)).adopt r.root (some f.value)).setChild .left
      f.value r.root = ((t.adopt r.root (some f.value)).setChild .left f.value r.root).replaceChild
        (Cfs.above path) .left x (some z) := by
    rw [replaceChild_adopt, replaceChild_setChild above]
  generalize (t.adopt r.root (some f.value)).setChild .left f.value r.root = u at unlinked moved
  generalize above : u.replaceChild (Cfs.above path) .left x (some z) = v at moved
  have same (y : Nat) (inside : y = x ∨ y ∈ (ColorTree.node c a z (plug r (f :: inner))).inorder) : SameAt u v y := by
    rw [← above]
    exact .replaceChild fun up => outer y inside (above_mem up)
  obtain ⟨parentU, colorU, rightU, leftU, linksA, around⟩ := unlinked.around
  have linksB : Links v (some x) (plug r (f :: inner)) :=
    unlinked.here.congr fun y hy => same y (.inr (by simp [ColorTree.inorder, hy]))
  have linksA : Links v (some x) a := linksA.congr fun y hy => same y (.inr (by simp [ColorTree.inorder, hy]))
  have around : Around v (some z) path := by
    rw [← above]
    exact around.replaceChild h.nodup_outside apart.2 .left
  have placed := at_placeNode linksA linksB around nodup
  refine ⟨_, ?_, at_plug.mp (at_wrap.mp placed)⟩
  have atX := same x (.inl rfl)
  have rightX : v.right x = some w := (atX.child .right).trans (rightU.trans rootB)
  have last : SameAt v ((v.setChild .right z (some w)).setParent w (some z)) x :=
    (SameAt.setChild ne).trans (.setParent wx)
  have right : (v.setChild .right z (some w)).right x = some w :=
    ((SameAt.setChild ne).child .right).trans rightX
  have took := takeOver_eq (a := a) ne (last.parent.trans (atX.parent.trans parentU))
    (last.color.trans (atX.color.trans colorU))
    ((last.child .left).trans ((atX.child .left).trans (leftU.trans root))) root
  rw [Cfs.eraseSuccessor_far parentZ away, parentX]
  simp only [child, moved, rightX, right, took, Option.bind_some, placeNode, rootB]
  rfl

/-- The node with two children gives its place to its successor. -/
theorem At.eraseSuccessor (h : At t (.node c a x (plug (.node k .leaf z r) inner)) path)
    (first : before inner = []) (root : a.root = some y) :
    ∃ u v, t.eraseSuccessor x z = some (r.root, v, u) ∧
      above (inner ++ ⟨.right, c, z, a⟩ :: path) = some v ∧ At u r (inner ++ ⟨.right, c, z, a⟩ :: path) := by
  cases inner with
  | nil =>
    obtain ⟨u, done, result⟩ := At.eraseSuccessor_near h root
    exact ⟨u, z, done, rfl, result⟩
  | cons f inner =>
    obtain ⟨u, done, result⟩ := At.eraseSuccessor_far h first root
    exact ⟨u, f.value, done, rfl, result⟩

theorem descend_first {fuel : Nat} (links : Links t p T)
    (root : T.root = some x) (enough : T.inorder.length ≤ fuel) :
    t.descend fuel x = T.inorder.head? := by
  induction T generalizing p x fuel with
  | leaf => cases root
  | node c a y b iha _ =>
    cases root
    simp only [ColorTree.inorder, List.length_append, List.length_cons] at enough
    obtain ⟨-, -, left, -, ha, -⟩ := links
    cases fuel with
    | zero => omega
    | succ fuel =>
      have next : t.left y = a.root := left
      rw [RbTree.descend, next, ColorTree.inorder]
      cases a with
      | leaf => rfl
      | node k l z r =>
        rw [List.head?_append_of_ne_nil _ (by simp [ColorTree.inorder])]
        exact iha ha rfl (by omega)

end

/-! ## `rb_erase` -/

theorem At.erase_eq_successor {v y : Nat} {inner : List (Frame Nat)} {u : RbTree}
    (h : At t (.node c a x (plug (.node k .leaf z r) inner)) path) (root : a.root = some y) (first : before inner = [])
    (enough : (plug (.node k .leaf z r) inner).inorder.length ≤ fuel)
    (done : t.eraseSuccessor x z = some (r.root, v, u)) :
    t.erase fuel x = if k = .black then u.eraseColor fuel r.root (some v) else some u := by
  obtain ⟨-, -, left, right, -, links⟩ := h.here
  obtain ⟨w, top⟩ := exists_root_plug (t := .node k .leaf z r) rfl inner
  have list : (plug (.node k .leaf z r) inner).inorder = z :: (r.inorder ++ after inner) := by
    simp [inorder_plug, first, ColorTree.inorder]
  have down : t.descend fuel w = some z := by
    rw [descend_first links top enough, list]
    rfl
  have below : At t (plug (.node k .leaf z r) inner) (⟨.right, c, x, a⟩ :: path) := at_wrap.mp h
  have color : t.color z = k := (at_plug.mp below).here.2.1
  have leftX : t.left x = some y := left.trans root
  have rightX : t.right x = some w := right.trans top
  simp [RbTree.erase, leftX, rightX, down, color, done]

theorem erase_rebuilds {m : Nat} (enough : (plug (.node c a x b) path).inorder.length < fuel)
    (h : Stored t (plug (.node c a x b) path)) (balanced : Balanced (plug (.node c a x b) path) .black m) :
    Rebuilt (t.erase fuel x) (before path ++ (a.inorder ++ b.inorder) ++ after path) := by
  have place := stored_plug.mp h
  have depth := length_le_outside path
  rw [length_inorder_plug] at enough
  cases a with
  | leaf =>
    have place : At t (.join .left c .leaf x b) path := place
    obtain ⟨k, l, n, here, fits, alternate⟩ := balanced.unplug
    rw [place.erase_eq]
    have rest := short_rebuilds (d := .left) (by omega : path.length < fuel) place.unlink here fits alternate
    rw [inorder_plug] at rest
    exact rest
  | node ca la y ra =>
    cases b with
    | leaf =>
      have place : At t (.join .right c .leaf x (.node ca la y ra)) path := place
      obtain ⟨k, l, n, here, fits, alternate⟩ := balanced.unplug
      rw [place.erase_eq]
      have rest := short_rebuilds (d := .right) (by omega : path.length < fuel) place.unlink here fits alternate
      rw [inorder_plug] at rest
      simpa [ColorTree.inorder] using rest
    | node cb lb w rb =>
      obtain ⟨k, z, r, inner, same, first⟩ := exists_first (t := .node cb lb w rb) rfl []
      have same : plug (.node k .leaf z r) inner = .node cb lb w rb := same
      rw [← same] at place balanced enough ⊢
      obtain ⟨u, v, done, up, result⟩ := place.eraseSuccessor first rfl
      have whole :
          Balanced (plug (.node k .leaf z r) (inner ++ ⟨.right, c, x, .node ca la y ra⟩ :: path)) .black m := by
        rw [plug_append]
        exact balanced
      obtain ⟨_, l, n, here, fits, alternate⟩ := whole.unplug
      have nodes := length_inorder_plug (.node k .leaf z r) inner
      have inside := length_le_outside inner
      simp only [ColorTree.inorder, List.length_append, List.length_cons, List.length_nil] at enough nodes
      rw [place.erase_eq_successor rfl first (by omega) done, ← up]
      have short : (inner ++ ⟨.right, c, z, .node ca la y ra⟩ :: path).length < fuel := by
        simp only [List.length_append, List.length_cons]
        omega
      have rest := short_rebuilds (d := .left) short result here (fits.relabel z) alternate
      have order : (plug r (inner ++ ⟨.right, c, z, .node ca la y ra⟩ :: path)).inorder =
          before path ++ ((ColorTree.node ca la y ra).inorder ++ (plug (.node k .leaf z r) inner).inorder) ++
            after path := by
        rw [plug_append, inorder_plug _ (_ :: _), inorder_plug r, inorder_plug _ inner, first]
        simp [before, after, ColorTree.inorder]
      rw [order] at rest
      exact rest

end Illinix.Verified.Cfs
