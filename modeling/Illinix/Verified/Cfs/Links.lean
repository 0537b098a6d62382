import Illinix.Kernel.RbTree

/-! # The tree that the nodes in memory form

`Stored t T` relates the linked nodes of `rbtree.c` to a tree `T`: the root pointer, the two
child pointers, the parent pointer and the colour of each node are those of `T`, and no node
stands in it twice.  The loops of `rbtree.c` work at one place of the tree and move up, so the
proofs use the same relation seen from a place, `At t T path`: the subtree there and the path
above it. -/

namespace Illinix.Verified.Cfs

open Kernel List Function
open Lib (Side Color)
open Lib.RedBlack
open scoped List

variable {t u : RbTree} {T a b e : ColorTree Nat} {path : List (Frame Nat)} {p q hole : Option Nat}
  {x y z : Nat} {c k : Color} {d : Side}

/-! ## Fields after an update -/

@[simp] theorem other_other (d : Side) : d.other.other = d := by
  cases d <;> rfl

theorem eq_or_other (d f : Side) : f = d ∨ f = d.other := by
  cases d <;> cases f <;> simp [Side.other]

@[simp] theorem setParent_root : (t.setParent x p).root = t.root := rfl
@[simp] theorem setParent_color : (t.setParent x p).color = t.color := rfl
@[simp] theorem setParent_child : (t.setParent x p).child d = t.child d := by
  cases d <;> rfl
@[simp] theorem setParent_parent : (t.setParent x p).parent = update t.parent x p := rfl

@[simp] theorem setColor_root : (t.setColor x c).root = t.root := rfl
@[simp] theorem setColor_parent : (t.setColor x c).parent = t.parent := rfl
@[simp] theorem setColor_child : (t.setColor x c).child d = t.child d := by
  cases d <;> rfl
@[simp] theorem setColor_color : (t.setColor x c).color = update t.color x c := rfl

@[simp] theorem setChild_root : (t.setChild d x p).root = t.root := by
  cases d <;> rfl
@[simp] theorem setChild_parent : (t.setChild d x p).parent = t.parent := by
  cases d <;> rfl
@[simp] theorem setChild_color : (t.setChild d x p).color = t.color := by
  cases d <;> rfl
@[simp] theorem setChild_child : (t.setChild d x p).child d = update (t.child d) x p := by
  cases d <;> rfl
@[simp] theorem setChild_child_other : (t.setChild d x p).child d.other = t.child d.other := by
  cases d <;> rfl
@[simp] theorem setChild_other_child : (t.setChild d.other x p).child d = t.child d := by
  cases d <;> rfl

@[simp] theorem adopt_root : (t.adopt p q).root = t.root := by
  cases p <;> rfl
@[simp] theorem adopt_color : (t.adopt p q).color = t.color := by
  cases p <;> rfl
@[simp] theorem adopt_child : (t.adopt p q).child d = t.child d := by
  cases p with
  | none => rfl
  | some x => exact setParent_child

@[simp] theorem replaceChild_color : (t.replaceChild p d x q).color = t.color := by
  cases p with
  | none => rfl
  | some y =>
    show (if t.child d y = some x then _ else _ : RbTree).color = _
    split <;> simp

@[simp] theorem replaceChild_parent : (t.replaceChild p d x q).parent = t.parent := by
  cases p with
  | none => rfl
  | some y =>
    show (if t.child d y = some x then _ else _ : RbTree).parent = _
    split <;> simp

/-- Two memories have the same node at an address. -/
structure SameAt (t u : RbTree) (x : Nat) : Prop where
  parent : u.parent x = t.parent x
  color : u.color x = t.color x
  child : ∀ d, u.child d x = t.child d x

namespace SameAt

theorem trans {v : RbTree} (first : SameAt t u x) (second : SameAt u v x) : SameAt t v x :=
  ⟨second.parent.trans first.parent, second.color.trans first.color,
    fun d => (second.child d).trans (first.child d)⟩

theorem setParent (ne : x ≠ y) : SameAt t (t.setParent y p) x := ⟨by simp [ne], rfl, fun d => by simp⟩

theorem setColor (ne : x ≠ y) : SameAt t (t.setColor y c) x := ⟨rfl, by simp [ne], fun d => by simp⟩

theorem setChild (ne : x ≠ y) : SameAt t (t.setChild d y p) x := by
  refine ⟨by simp, by simp, fun f => ?_⟩
  cases eq_or_other d f with
  | inl same =>
    subst same
    simp [ne]
  | inr other =>
    subst other
    simp

theorem adopt (ne : p ≠ some x) : SameAt t (t.adopt p q) x := by
  cases p with
  | none => exact ⟨rfl, rfl, fun _ => rfl⟩
  | some y => exact setParent (fun same => ne (congrArg some same.symm))

theorem replaceChild (ne : p ≠ some x) : SameAt t (t.replaceChild p d y q) x := by
  cases p with
  | none => exact ⟨rfl, rfl, fun f => by cases f <;> rfl⟩
  | some z =>
    have ne' : x ≠ z := fun same => ne (congrArg some same.symm)
    show SameAt t (if t.child d z = some y then t.setChild d z q else t.setChild d.other z q) x
    split
    · exact setChild ne'
    · exact setChild ne'

end SameAt

/-! ## Subtrees -/

/-- The nodes of `T` are linked as in `T`, and its root has the parent `p`. -/
def Links (t : RbTree) : Option Nat → ColorTree Nat → Prop
  | _, .leaf => True
  | p, .node c l x r =>
    t.parent x = p ∧ t.color x = c ∧ t.child .left x = l.root ∧ t.child .right x = r.root ∧
      Links t (some x) l ∧ Links t (some x) r

theorem links_join : Links t p (.join d c a x b) ↔
    t.parent x = p ∧ t.color x = c ∧ t.child d x = a.root ∧ t.child d.other x = b.root ∧
      Links t (some x) a ∧ Links t (some x) b := by
  cases d with
  | left => rfl
  | right =>
    show _ ∧ _ ∧ _ ∧ _ ∧ _ ∧ _ ↔ _
    constructor
    · rintro ⟨parent, color, left, right, hl, hr⟩
      exact ⟨parent, color, right, left, hr, hl⟩
    · rintro ⟨parent, color, right, left, hr, hl⟩
      exact ⟨parent, color, left, right, hl, hr⟩

theorem Links.congr (same : ∀ x ∈ T.inorder, SameAt t u x) (h : Links t p T) : Links u p T := by
  induction T generalizing p with
  | leaf => trivial
  | node c l x r ihl ihr =>
    obtain ⟨parent, color, left, right, hl, hr⟩ := h
    have here := same x (by simp [ColorTree.inorder])
    refine ⟨here.parent.trans parent, here.color.trans color, (here.child _).trans left,
      (here.child _).trans right, ihl (fun z hz => same z ?_) hl, ihr (fun z hz => same z ?_) hr⟩
    · simp [ColorTree.inorder, hz]
    · simp [ColorTree.inorder, hz]

theorem root_mem (h : T.root = some x) : x ∈ T.inorder := by
  cases T with
  | leaf => cases h
  | node c l y r =>
    cases h
    simp [ColorTree.inorder]

theorem Links.adopt (nodup : T.inorder.Nodup) (h : Links t p T) : Links (t.adopt T.root q) q T := by
  cases T with
  | leaf => trivial
  | node c l x r =>
    obtain ⟨_, color, left, right, hl, hr⟩ := h
    have apart : x ∉ l.inorder ++ r.inorder := by
      have perm : (ColorTree.node c l x r).inorder.Perm (x :: (l.inorder ++ r.inorder)) := perm_middle
      exact (nodup_cons.mp (perm.nodup_iff.mp nodup)).1
    rw [mem_append, not_or] at apart
    refine ⟨by simp [RbTree.adopt, ColorTree.root], by simpa using color, by simpa using left,
      by simpa using right, hl.congr fun z hz => .setParent ?_, hr.congr fun z hz => .setParent ?_⟩
    · exact fun same => apart.1 (same ▸ hz)
    · exact fun same => apart.2 (same ▸ hz)

/-! ## Paths -/

/-- The node above a place. -/
def above (path : List (Frame Nat)) : Option Nat := path.head?.map Frame.value

/-- The nodes of `path` are linked as in it, and the pointer to the place is `hole`. -/
def Around (t : RbTree) : Option Nat → List (Frame Nat) → Prop
  | hole, [] => t.root = hole
  | hole, f :: path =>
    t.parent f.value = above path ∧ t.color f.value = f.color ∧
      t.child f.side f.value = hole ∧ t.child f.side.other f.value = f.sibling.root ∧
      Links t (some f.value) f.sibling ∧ Around t (some f.value) path

theorem mem_outside_cons (f : Frame Nat) (path : List (Frame Nat)) :
    x ∈ outside (f :: path) ↔ x = f.value ∨ x ∈ f.sibling.inorder ∨ x ∈ outside path := by
  rw [(outside_cons_perm f path).mem_iff, mem_cons, mem_append]

theorem above_mem (h : above path = some x) : x ∈ outside path := by
  cases path with
  | nil => cases h
  | cons f path =>
    cases h
    exact (mem_outside_cons f path).mpr (.inl rfl)

theorem Around.congr (root : u.root = t.root) (same : ∀ x ∈ outside path, SameAt t u x)
    (h : Around t hole path) : Around u hole path := by
  induction path generalizing hole with
  | nil => exact root.trans h
  | cons f path ih =>
    obtain ⟨parent, color, near, far, sibling, rest⟩ := h
    have here := same f.value ((mem_outside_cons f path).mpr (.inl rfl))
    refine ⟨here.parent.trans parent, here.color.trans color, (here.child _).trans near,
      (here.child _).trans far, sibling.congr fun z hz => same z ?_, ih (fun z hz => same z ?_) rest⟩
    · exact (mem_outside_cons f path).mpr (.inr (.inl hz))
    · exact (mem_outside_cons f path).mpr (.inr (.inr hz))

theorem Around.replaceChild (nodup : (outside path).Nodup) (fresh : x ∉ outside path)
    (d : Side) (h : Around t (some x) path) :
    Around (t.replaceChild (above path) d x q) q path := by
  cases path with
  | nil => rfl
  | cons f path =>
    obtain ⟨parent, color, near, far, sibling, rest⟩ := h
    have apart := (outside_cons_perm f path).nodup_iff.mp nodup
    rw [nodup_cons, mem_append, not_or] at apart
    -- the test of the parent's pointers tells the two sides apart, because `x` is on one only
    have written : t.replaceChild (some f.value) d x q = t.setChild f.side f.value q := by
      show (if t.child d f.value = some x then _ else _) = _
      cases eq_or_other f.side d with
      | inl same =>
        subst same
        rw [if_pos near]
      | inr other =>
        subst other
        rw [far, if_neg, other_other]
        intro here
        exact fresh ((mem_outside_cons f path).mpr (.inr (.inl (root_mem here))))
    show Around (t.replaceChild (some f.value) d x q) q (f :: path)
    rw [written]
    refine ⟨by simpa using parent, by simpa using color, by simp, by simpa using far,
      sibling.congr fun z hz => .setChild ?_, rest.congr (by simp) fun z hz => .setChild ?_⟩
    · exact fun same => apart.1.1 (same ▸ hz)
    · exact fun same => apart.1.2 (same ▸ hz)

/-! ## Places of a stored tree -/

structure Stored (t : RbTree) (T : ColorTree Nat) : Prop where
  root : t.root = T.root
  links : Links t none T
  nodup : T.inorder.Nodup

/-- The tree with `T` at the place of `path` is stored. -/
structure At (t : RbTree) (T : ColorTree Nat) (path : List (Frame Nat)) : Prop where
  here : Links t (above path) T
  around : Around t T.root path
  nodup : (T.inorder ++ outside path).Nodup

theorem nodup_wrap {f : Frame Nat} : ((f.wrap T).inorder ++ outside path).Nodup ↔
    (T.inorder ++ outside (f :: path)).Nodup := by
  apply List.Perm.nodup_iff
  calc (f.wrap T).inorder ++ outside path
    _ ~ f.value :: (T.inorder ++ f.sibling.inorder) ++ outside path :=
      (ColorTree.inorder_join_perm _ _ _ _ _).append_right _
    _ = f.value :: (T.inorder ++ (f.sibling.inorder ++ outside path)) := by simp
    _ ~ T.inorder ++ f.value :: (f.sibling.inorder ++ outside path) := perm_middle.symm
    _ ~ T.inorder ++ outside (f :: path) := (outside_cons_perm f path).symm.append_left _

theorem at_wrap {f : Frame Nat} : At t (f.wrap T) path ↔ At t T (f :: path) := by
  constructor
  · rintro ⟨here, around, nodup⟩
    obtain ⟨parent, color, near, far, hT, hs⟩ := links_join.mp here
    rw [Frame.wrap, ColorTree.root_join] at around
    exact ⟨hT, ⟨parent, color, near, far, hs, around⟩, nodup_wrap.mp nodup⟩
  · rintro ⟨here, ⟨parent, color, near, far, hs, around⟩, nodup⟩
    refine ⟨links_join.mpr ⟨parent, color, near, far, here, hs⟩, ?_, nodup_wrap.mpr nodup⟩
    rw [Frame.wrap, ColorTree.root_join]
    exact around

/-- A stored tree can be looked at from each of its places. -/
theorem stored_plug : Stored t (plug T path) ↔ At t T path := by
  induction path generalizing T with
  | nil =>
    constructor
    · rintro ⟨root, links, nodup⟩
      exact ⟨links, root, by simpa [plug] using nodup⟩
    · rintro ⟨links, root, nodup⟩
      exact ⟨root, links, by simpa [plug] using nodup⟩
  | cons f path ih => exact ih.trans at_wrap

theorem stored_iff : Stored t T ↔ At t T [] := by
  show Stored t (plug T []) ↔ _
  exact stored_plug

namespace At

theorem nodup_here (h : At t T path) : T.inorder.Nodup := (nodup_append.mp h.nodup).1

theorem nodup_outside (h : At t T path) : (outside path).Nodup := (nodup_append.mp h.nodup).2.1

theorem apart (h : At t T path) (inside : x ∈ T.inorder) : x ∉ outside path :=
  fun beyond => (nodup_append.mp h.nodup).2.2 x inside x beyond rfl

theorem fields (h : At t (.join d c a x b) path) : t.parent x = above path ∧ t.color x = c ∧
    t.child d x = a.root ∧ t.child d.other x = b.root := by
  obtain ⟨parent, color, near, far, -, -⟩ := links_join.mp h.here
  exact ⟨parent, color, near, far⟩

theorem setColor (h : At t (.join d c a x b) path) (k : Color) :
    At (t.setColor x k) (.join d k a x b) path := by
  obtain ⟨parent, color, near, far, ha, hb⟩ := links_join.mp h.here
  have perm := ColorTree.inorder_join_perm d c a x b
  have apart := nodup_cons.mp (perm.nodup_iff.mp h.nodup_here)
  rw [mem_append, not_or] at apart
  have away : x ∉ outside path := h.apart (perm.mem_iff.mpr (by simp))
  refine ⟨links_join.mpr ⟨parent, by simp, by simpa using near, by simpa using far,
    ha.congr fun z hz => .setColor ?_, hb.congr fun z hz => .setColor ?_⟩, ?_, ?_⟩
  · exact fun same => apart.1.1 (same ▸ hz)
  · exact fun same => apart.1.2 (same ▸ hz)
  · have around := h.around
    rw [ColorTree.root_join] at around ⊢
    exact around.congr setColor_root fun z hz => .setColor fun same => away (same ▸ hz)
  · have recolored := (ColorTree.inorder_join_perm d k a x b).trans perm.symm
    exact (recolored.append_right _).nodup_iff.mpr h.nodup

theorem rotate (h : At t (.join d c a x (.join d k b y e)) path) :
    ∃ u, t.rotate d x = some u ∧ At u (.join d k (.join d c a x b) y e) path := by
  obtain ⟨parent, color, near, far, ha, inner⟩ := links_join.mp h.here
  obtain ⟨-, color', near', far', hb, he⟩ := links_join.mp inner
  have around := h.around
  rw [ColorTree.root_join] at around
  -- all the nodes involved are different ones
  have perm : (ColorTree.join d c a x (.join d k b y e)).inorder ~
      x :: y :: (a.inorder ++ (b.inorder ++ e.inorder)) :=
    (ColorTree.inorder_join_perm _ _ _ _ _).trans
      (((ColorTree.inorder_join_perm _ _ _ _ _).append_left _).trans perm_middle |>.cons _)
  have distinct := perm.nodup_iff.mp h.nodup_here
  simp only [nodup_cons, nodup_append, mem_cons, mem_append, not_or]
    at distinct
  obtain ⟨⟨xy, xa, xb, xe⟩, ⟨ya, yb, ye⟩, -, ⟨bnodup, -, be⟩, aside⟩ := distinct
  have beyond : ∀ z ∈ x :: y :: (a.inorder ++ (b.inorder ++ e.inorder)), z ∉ outside path :=
    fun z hz => h.apart (perm.mem_iff.mpr hz)
  have up (z : Nat) (hz : z ∈ x :: y :: (a.inorder ++ (b.inorder ++ e.inorder))) :
      above path ≠ some z := fun same => beyond z hz (above_mem same)
  -- the first four updates, then the pointer from above, then the parent of `x`
  let t1 := t.setChild d.other x b.root
  let t2 := t1.adopt b.root (some x)
  let t3 := t2.setChild d y (some x)
  let t4 := t3.setParent y (above path)
  let t5 := t4.replaceChild (above path) d x (some y)
  have first {z : Nat} (zx : z ≠ x) (zy : z ≠ y) (zb : b.root ≠ some z) : SameAt t t4 z :=
    (((SameAt.setChild zx).trans (.adopt zb)).trans (.setChild zy)).trans (.setParent zy)
  have last {z : Nat} (zx : z ≠ x) (zp : above path ≠ some z) :
      SameAt t4 (t5.setParent x (some y)) z := (SameAt.replaceChild zp).trans (.setParent zx)
  refine ⟨t5.setParent x (some y), ?_, ?_, ?_, ?_⟩
  · simp [RbTree.rotate, far, near', parent, t5, t4, t3, t2, t1]
  · -- the links of the two nodes and of the three subtrees
    have same (z : Nat) (zx : z ≠ x) (zy : z ≠ y) (zb : b.root ≠ some z)
        (zp : above path ≠ some z) : SameAt t (t5.setParent x (some y)) z :=
      (first zx zy zb).trans (last zx zp)
    have lower : SameAt t4 t5 x := .replaceChild (up x (by simp))
    have upper : SameAt t4 t5 y := .replaceChild (up y (by simp))
    have linksA : Links (t5.setParent x (some y)) (some x) a := by
      refine ha.congr fun z hz => same z ?_ ?_ ?_ (up z (by simp [hz]))
      · exact fun eq => xa (eq ▸ hz)
      · exact fun eq => ya (eq ▸ hz)
      · exact fun eq => aside z hz z (.inl (root_mem eq)) rfl
    have linksE : Links (t5.setParent x (some y)) (some y) e := by
      refine he.congr fun z hz => same z ?_ ?_ ?_ (up z (by simp [hz]))
      · exact fun eq => xe (eq ▸ hz)
      · exact fun eq => ye (eq ▸ hz)
      · exact fun eq => be z (root_mem eq) z hz rfl
    have linksB : Links (t5.setParent x (some y)) (some x) b := by
      have kept : Links t1 (some y) b := by
        refine hb.congr fun z hz => .setChild ?_
        exact fun eq => xb (eq ▸ hz)
      have moved : Links t2 (some x) b := kept.adopt bnodup
      refine moved.congr fun z hz => ?_
      have zx : z ≠ x := fun eq => xb (eq ▸ hz)
      have zy : z ≠ y := fun eq => yb (eq ▸ hz)
      exact ((SameAt.setChild zy).trans (.setParent zy)).trans (last zx (up z (by simp [hz])))
    refine links_join.mpr ⟨?_, ?_, ?_, ?_, links_join.mpr ⟨?_, ?_, ?_, ?_, linksA, linksB⟩, linksE⟩
    · simp [Ne.symm xy, upper.parent, t4]
    · simp [upper.color, t4, t3, t2, t1, color']
    · simp [upper.child, t4, t3]
    · simp [upper.child, t4, t3, t2, t1, Ne.symm xy, far']
    · simp
    · simp [lower.color, t4, t3, t2, t1, color]
    · simp [lower.child, t4, t3, t2, t1, xy, near]
    · simp [lower.child, t4, t3, t2, t1]
  · rw [ColorTree.root_join]
    have placed : Around t4 (some x) path := by
      refine around.congr (by simp [t4, t3, t2, t1]) fun z hz => first ?_ ?_ ?_
      · exact fun eq => beyond x (by simp) (eq ▸ hz)
      · exact fun eq => beyond y (by simp) (eq ▸ hz)
      · exact fun eq => beyond z (by simp [root_mem eq]) hz
    refine (placed.replaceChild h.nodup_outside (beyond x (by simp)) d).congr setParent_root
      fun z hz => .setParent fun eq => beyond x (by simp) (eq ▸ hz)
  · rw [ColorTree.inorder_rotate d c k c k]
    exact h.nodup

end At

end Illinix.Verified.Cfs
