import Illinix.Lib.RedBlack

/-! # Red-black trees

`lib/rbtree.c` and `include/rbtree.h`.  A node is named by its address.  Each field of
`rb_node` is a table over all addresses; `rb_parent_color` is two tables, because nodes are
aligned and the two low bits of an address are free for the colour.

A function returns `none` where the C code follows a null pointer.  The loops have a bound as
their first argument and return `none` when it is used up.  The code for the left and for the
right side is one definition with the side as an argument. -/

namespace Illinix.Kernel

open Function

open Lib (Side Color)

/-! ## The word `rb_parent_color` -/

/-- `rb_parent(r)`: `rb_parent_color & ~3` -/
def rbParent (word : Nat) : Nat := word / 4 * 4

/-- `rb_color(r)`: `rb_parent_color & 1` -/
def rbColor (word : Nat) : Nat := word % 2

/-- `rb_set_red`: `rb_parent_color &= ~1` -/
def rbSetRed (word : Nat) : Nat := word / 2 * 2

/-- `rb_set_black`: `rb_parent_color |= 1` -/
def rbSetBlack (word : Nat) : Nat := word ||| 1

/-- `(rb_parent_color & 3) | parent` -/
def rbSetParent (word parent : Nat) : Nat := word % 4 ||| parent

/-- `(rb_parent_color & ~1) | color` -/
def rbSetColor (word color : Nat) : Nat := word / 2 * 2 ||| color

/-! ## The tree -/

structure RbTree where
  /-- `root->rb_node` -/
  root : Option Nat
  parent : Nat → Option Nat
  color : Nat → Color
  right : Nat → Option Nat
  left : Nat → Option Nat

namespace RbTree

def child (t : RbTree) : Side → Nat → Option Nat
  | .left => t.left
  | .right => t.right

/-- `rb_set_parent` -/
def setParent (t : RbTree) (node : Nat) (parent : Option Nat) : RbTree :=
  { t with parent := update t.parent node parent }

/-- `rb_set_color`, `rb_set_red` and `rb_set_black` -/
def setColor (t : RbTree) (node : Nat) (color : Color) : RbTree :=
  { t with color := update t.color node color }

def setChild (t : RbTree) (d : Side) (node : Nat) (child : Option Nat) : RbTree :=
  match d with
  | .left => { t with left := update t.left node child }
  | .right => { t with right := update t.right node child }

/-- `!node || rb_is_black(node)` -/
def isBlack (t : RbTree) : Option Nat → Bool
  | none => true
  | some node => t.color node = .black

/-- `if (child) rb_set_parent(child, parent)` -/
def adopt (t : RbTree) (child parent : Option Nat) : RbTree :=
  match child with
  | none => t
  | some node => t.setParent node parent

/-- Puts `new` in the place of `node` below `parent`, looking on side `d` first; without a
    parent it becomes the root. -/
def replaceChild (t : RbTree) (parent : Option Nat) (d : Side) (node : Nat) (new : Option Nat) :
    RbTree :=
  match parent with
  | some p =>
    if t.child d p = some node then t.setChild d p new else t.setChild d.other p new
  | none => { t with root := new }

/-- The node goes down on side `d` and its child on the other side takes its place. -/
def rotate (d : Side) (node : Nat) (t : RbTree) : Option RbTree := do
  let up ← t.child d.other node
  let parent := t.parent node
  let inner := t.child d up
  let t := t.setChild d.other node inner
  let t := t.adopt inner (some node)
  let t := t.setChild d up (some node)
  let t := t.setParent up parent
  let t := t.replaceChild parent d node (some up)
  return t.setParent node (some up)

/-- `__rb_rotate_left` -/
def rotateLeft : Nat → RbTree → Option RbTree := rotate .left

/-- `__rb_rotate_right` -/
def rotateRight : Nat → RbTree → Option RbTree := rotate .right

/-! ## Insertion -/

/-- The pointer that `rb_link_node` writes: `&root->rb_node`, or the field of a node. -/
inductive Link where
  | root
  | child (parent : Nat) (side : Side)

/-- The `parent` that goes with a link. -/
def Link.parent : Link → Option Nat
  | .root => none
  | .child p _ => some p

/-- `*link` -/
def follow (t : RbTree) : Link → Option Nat
  | .root => t.root
  | .child p d => t.child d p

/-- `rb_link_node` -/
def linkNode (t : RbTree) (node : Nat) (link : Link) : RbTree :=
  let t := (t.setParent node link.parent).setColor node .red
  let t := (t.setChild .right node none).setChild .left node none
  match link with
  | .root => { t with root := some node }
  | .child p d => t.setChild d p (some node)

/-- The part of the loop of `rb_insert_color` without a red uncle: `parent` is on side `d` of
    `gparent`.  The result has the node that the loop goes on with. -/
def insertRotate (d : Side) (node parent gparent : Nat) (t : RbTree) : Option (Nat × RbTree) := do
  let (node, parent, t) ←
    if t.child d.other parent = some node then do
      pure (parent, node, ← t.rotate d parent)
    else pure (node, parent, t)
  let t := (t.setColor parent .black).setColor gparent .red
  return (node, ← t.rotate d.other gparent)

/-- `rb_insert_color` -/
def insertColor : Nat → Nat → RbTree → Option RbTree
  | 0, _, _ => none
  | fuel + 1, node, t =>
    match t.parent node with
    | some parent =>
      if t.color parent = .red then do
        let gparent ← t.parent parent
        let d := if t.left gparent = some parent then Side.left else .right
        let uncle := t.child d.other gparent
        match uncle, t.isBlack uncle with
        | some uncle, false =>
          let t := ((t.setColor uncle .black).setColor parent .black).setColor gparent .red
          insertColor fuel gparent t
        | _, _ =>
          let (node, t) ← t.insertRotate d node parent gparent
          insertColor fuel node t
      else t.root.map fun root => t.setColor root .black
    | none => t.root.map fun root => t.setColor root .black

/-! ## Removal -/

/-- `rb_is_red(other)` in `__rb_erase_color`: the node next to the place that is one black node
    short moves up; the result has its new neighbour. -/
def eraseRedSibling (d : Side) (parent other : Nat) (t : RbTree) : Option (Nat × RbTree) :=
  if t.color other = .red then do
    let t := (t.setColor other .black).setColor parent .red
    let t ← t.rotate d parent
    return (← t.child d.other parent, t)
  else some (other, t)

/-- The case of `__rb_erase_color` that ends the loop: `other` has a red child. -/
def eraseRotate (d : Side) (parent other : Nat) (t : RbTree) : Option RbTree := do
  let (other, t) ←
    if t.isBlack (t.child d.other other) then do
      let t := (t.setColor (← t.child d other) .black).setColor other .red
      let t ← t.rotate d.other other
      pure (← t.child d.other parent, t)
    else pure (other, t)
  let t := (t.setColor other (t.color parent)).setColor parent .black
  let t := t.setColor (← t.child d.other other) .black
  t.rotate d parent

/-- `if (node) rb_set_black(node)` -/
def eraseEnd (t : RbTree) : Option Nat → RbTree
  | none => t
  | some node => t.setColor node .black

/-- `__rb_erase_color` -/
def eraseColor : Nat → Option Nat → Option Nat → RbTree → Option RbTree
  | 0, _, _, _ => none
  | fuel + 1, node, parent, t =>
    if t.isBlack node ∧ node ≠ t.root then do
      let parent ← parent
      let d := if t.left parent = node then Side.left else .right
      let (other, t) ← t.eraseRedSibling d parent (← t.child d.other parent)
      if t.isBlack (t.left other) ∧ t.isBlack (t.right other) then
        let t := t.setColor other .red
        eraseColor fuel (some parent) (t.parent parent) t
      else do
        let t ← t.eraseRotate d parent other
        return t.eraseEnd t.root
    else some (t.eraseEnd node)

/-- `while (node->rb_left) node = node->rb_left` -/
def descend : Nat → Nat → RbTree → Option Nat
  | 0, _, _ => none
  | fuel + 1, node, t =>
    match t.left node with
    | none => some node
    | some left => descend fuel left t

/-- The case of `rb_erase` for a node with two children: its successor `node` takes the place
    of `old`.  The result has the child and the parent that the colours are corrected at. -/
def eraseSuccessor (old node : Nat) (t : RbTree) : Option (Option Nat × Nat × RbTree) := do
  let t := t.replaceChild (t.parent old) .left old (some node)
  let child := t.right node
  let parent ← t.parent node
  let (parent, t) ←
    if parent = old then pure (node, t)
    else do
      let t := (t.adopt child (some parent)).setChild .left parent child
      let t := t.setChild .right node (t.right old)
      pure (parent, t.setParent (← t.right old) (some node))
  let t := (t.setParent node (t.parent old)).setColor node (t.color old)
  let t := t.setChild .left node (t.left old)
  return (child, parent, t.setParent (← t.left old) (some node))

/-- `rb_erase` -/
def erase (fuel node : Nat) (t : RbTree) : Option RbTree :=
  match t.left node, t.right node with
  | some _, some right => do
    let next ← t.descend fuel right
    let color := t.color next
    let (child, parent, t) ← t.eraseSuccessor node next
    if color = .black then t.eraseColor fuel child (some parent) else return t
  | left, right =>
    let child := if left = none then right else left
    let parent := t.parent node
    let t := (t.adopt child parent).replaceChild parent .left node child
    if t.color node = .black then t.eraseColor fuel child parent else some t

/-! ## Order -/

/-- The last loop of `rb_next` -/
def ascend : Nat → Nat → RbTree → Option (Option Nat)
  | 0, _, _ => none
  | fuel + 1, node, t =>
    match t.parent node with
    | none => some none
    | some parent =>
      if t.right parent = some node then ascend fuel parent t else some (some parent)

/-- `rb_next` -/
def next (fuel node : Nat) (t : RbTree) : Option (Option Nat) :=
  if t.parent node = some node then some none
  else
    match t.right node with
    | some right => (t.descend fuel right).map some
    | none => t.ascend fuel node

end RbTree

end Illinix.Kernel
