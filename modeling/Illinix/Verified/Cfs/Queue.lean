import Illinix.Verified.Cfs.Erase
import Illinix.Verified.Cfs.Steps

/-! # The run queue as a list

What `__enqueue_entity` and `__dequeue_entity` do to the tree, its cached first node and its
count, in terms of the list of the tasks in the tree.  If the list is sorted, a task enters behind all
tasks whose key is not greater than its own and before all others.  Any task can leave. -/

namespace Illinix.Verified.Cfs

open Kernel
open Lib (Side Color)
open Lib.RedBlack

variable {s : Scheduler} {t : RbTree} {T : ColorTree Nat} {path : List (Frame Nat)} {x y : Nat}
  {q l r : List Nat} {fuel : Nat}

/-- The tree, the first node and the count agree on the list of the queued tasks. -/
structure Holds (s : Scheduler) (q : List Nat) : Prop where
  tree : ∃ T n, Stored s.rbTree T ∧ Balanced T .black n ∧ T.inorder = q
  leftMost : s.leftMost = q.head?
  count : s.nrRunning = q.length

theorem Holds.nodup (h : Holds s q) : q.Nodup := by
  obtain ⟨T, n, stored, -, rfl⟩ := h.tree
  exact stored.nodup

/-! ## Looking for the place of a key -/

def Sorted (s : Scheduler) (q : List Nat) : Prop :=
  q.Pairwise fun a b => (s.sched a).vruntime ≤ (s.sched b).vruntime

/-- `path'` leads to the place of `key` in the subtree `T` at `path`: after the tasks `l` and
    before the tasks `r`. -/
structure PlaceOf (s : Scheduler) (key : UInt64) (T : ColorTree Nat) (path path' : List (Frame Nat))
    (l r : List Nat) : Prop where
  same : plug .leaf path' = plug T path
  length : path'.length ≤ path.length + T.inorder.length
  split : T.inorder = l ++ r
  front : before path' = before path ++ l
  back : after path' = r ++ after path
  low : Sorted s T.inorder → ∀ a ∈ l, (s.sched a).vruntime ≤ key
  high : Sorted s T.inorder → ∀ a ∈ r, key < (s.sched a).vruntime

/-- The loop goes down as far as the subtree is deep. -/
theorem findLink_place (key : UInt64) (enough : T.inorder.length < fuel) (h : At s.rbTree T path) (left : Bool) :
    ∃ path' l r, s.findLink key fuel (linkTo path) left = some (linkTo path', left && l.isEmpty) ∧
      PlaceOf s key T path path' l r := by
  induction T generalizing path fuel left with
  | leaf =>
    cases fuel with
    | zero => cases enough
    | succ fuel =>
      refine ⟨path, [], [], ?_, rfl, by simp, rfl, by simp, rfl, by simp, by simp⟩
      rw [Scheduler.findLink, h.follow]
      simp [ColorTree.root]
  | node c a x b iha ihb =>
    cases fuel with
    | zero => cases enough
    | succ fuel =>
      have parts : a.inorder.length + (b.inorder.length + 1) < fuel + 1 := by
        simpa [ColorTree.inorder] using enough
      have sorted_parts : Sorted s (ColorTree.node c a x b).inorder → Sorted s a.inorder ∧
          ((∀ z ∈ b.inorder, (s.sched x).vruntime ≤ (s.sched z).vruntime) ∧ Sorted s b.inorder) ∧
          ∀ z ∈ a.inorder, ∀ w ∈ x :: b.inorder, (s.sched z).vruntime ≤ (s.sched w).vruntime := by
        intro sorted
        unfold Sorted at sorted
        rw [ColorTree.inorder, List.pairwise_append, List.pairwise_cons] at sorted
        exact sorted
      have here : s.rbTree.follow (linkTo path) = some x := h.follow
      rw [Scheduler.findLink, here]
      simp only []
      split
      · next less =>
        -- to the left: the node and everything right of it come after the place
        have below : At s.rbTree a (⟨.left, c, x, b⟩ :: path) := at_wrap.mp h
        have shorter : a.inorder.length < fuel := by omega
        obtain ⟨path', l, r, found, place⟩ := iha shorter below left
        refine ⟨path', l, r ++ x :: b.inorder, found, place.same, ?_, ?_, place.front, ?_,
          fun sorted => place.low (sorted_parts sorted).1, fun sorted => ?_⟩
        · have := place.length
          simp only [List.length_cons, ColorTree.inorder, List.length_append] at this ⊢
          omega
        · simp [ColorTree.inorder, place.split]
        · simp [place.back, after]
        · obtain ⟨sortedA, ⟨aboveX, -⟩, -⟩ := sorted_parts sorted
          intro z hz
          rw [List.mem_append, List.mem_cons] at hz
          rcases hz with inA | rfl | inB
          · exact place.high sortedA z inA
          · exact less
          · exact UInt64.lt_of_lt_of_le less (aboveX z inB)
      · next notLess =>
        have atMost : (s.sched x).vruntime ≤ key := UInt64.not_lt.mp notLess
        have below : At s.rbTree b (⟨.right, c, x, a⟩ :: path) := at_wrap.mp h
        have shorter : b.inorder.length < fuel := by omega
        obtain ⟨path', l, r, found, place⟩ := ihb shorter below false
        refine ⟨path', a.inorder ++ x :: l, r, ?_, place.same, ?_, ?_, ?_, place.back, fun sorted => ?_,
          fun sorted => place.high (sorted_parts sorted).2.1.2⟩
        · rw [show (a.inorder ++ x :: l).isEmpty = false by simp, Bool.and_false]
          exact found
        · have := place.length
          simp only [List.length_cons, ColorTree.inorder, List.length_append] at this ⊢
          omega
        · simp [ColorTree.inorder, place.split]
        · simp [place.front, before]
        · obtain ⟨-, ⟨-, sortedB⟩, across⟩ := sorted_parts sorted
          intro z hz
          rw [List.mem_append, List.mem_cons] at hz
          rcases hz with inA | rfl | inB
          · exact UInt64.le_trans (across z inA x (by simp)) atMost
          · exact atMost
          · exact place.low sortedB z inB

/-! ## Entering -/

theorem treeEnqueue_spec (h : Holds s q) (fresh : x ∉ q) :
    ∃ tree left l r, s.treeEnqueue x = some (entered s x tree left) ∧
      Holds (entered s x tree left) (l ++ x :: r) ∧ q = l ++ r ∧
      (Sorted s q → (∀ a ∈ l, (s.sched a).vruntime ≤ (s.sched x).vruntime) ∧
        ∀ a ∈ r, (s.sched x).vruntime < (s.sched a).vruntime) := by
  obtain ⟨⟨T, n, stored, balanced, rfl⟩, leftMost, count⟩ := h
  have enough : T.inorder.length < s.nrRunning + 1 := by omega
  obtain ⟨path, l, r, found, place⟩ := findLink_place (s.sched x).vruntime enough (stored_iff.mp stored) true
  have whole : plug .leaf path = T := place.same
  have front : before path = l := place.front
  have back : after path = r := by simpa [after] using place.back
  -- the new node hangs below the place as a red leaf
  rw [← whole] at stored balanced
  have away : x ∉ outside path := by
    rw [outside, front, back, ← place.split]
    exact fresh
  have linked := (stored_plug.mp stored).linkNode away
  obtain ⟨c, k, m, place', fits, -⟩ := balanced.unplug
  cases place'
  have depth := place.length
  simp only [List.length_nil] at depth
  obtain ⟨tree, U, m, done, storedU, balancedU, order⟩ :=
    insertColor_rebuilds (show path.length < s.nrRunning + 1 by omega) linked rfl (.red .leaf .leaf) fits
  rw [inorder_plug, front, back] at order
  have order' : U.inorder = l ++ x :: r := by simpa [ColorTree.inorder] using order
  refine ⟨tree, if l.isEmpty then some x else s.leftMost, l, r, ?_, ?_, place.split,
    fun sorted => ⟨place.low sorted, place.high sorted⟩⟩
  · have found' : s.findLink (s.sched x).vruntime (s.nrRunning + 1) .root true =
        some (linkTo path, l.isEmpty) := found
    cases l with
    | nil => simp [Scheduler.treeEnqueue, found', done, entered]
    | cons a l => simp [Scheduler.treeEnqueue, found', done, entered]
  · refine ⟨⟨U, m, storedU, balancedU, order'⟩, ?_, ?_⟩
    · cases l with
      | nil => rfl
      | cons a l =>
        show s.leftMost = some a
        rw [leftMost, place.split]
        rfl
    · show s.nrRunning + 1 = _
      rw [count, place.split]
      simp only [List.length_append, List.length_cons]
      omega

/-! ## Leaving -/

/-- `rb_next` of the first node: the first node of its right subtree, or its parent. -/
theorem next_first {c : Color} {b : ColorTree Nat} (h : At t (.node c .leaf x b) path)
    (first : before path = []) (enough : b.inorder.length < fuel) :
    t.next fuel x = some ((b.inorder ++ after path).head?) := by
  obtain ⟨parent, -, -, right, -, hb⟩ := h.here
  have child : t.right x = b.root := right
  have notSelf : t.parent x ≠ some x := by
    rw [parent]
    exact fun same => h.apart (by simp [ColorTree.inorder]) (above_mem same)
  rw [RbTree.next, if_neg notSelf, child]
  cases b with
  | node k l z r =>
    have down := descend_first hb rfl (Nat.le_of_lt enough)
    rw [List.head?_append_of_ne_nil _ (by simp [ColorTree.inorder]), ← down]
    cases found : t.descend fuel z with
    | none =>
      rw [down] at found
      simp [ColorTree.inorder] at found
    | some y => simp [ColorTree.root, found]
  | leaf =>
    cases fuel with
    | zero => cases enough
    | succ fuel =>
      show t.ascend (fuel + 1) x = some (after path).head?
      rw [RbTree.ascend, parent]
      cases path with
      | nil => rfl
      | cons f path =>
        obtain ⟨d, k, v, s⟩ := f
        cases d with
        | right => simp [before] at first
        | left =>
          -- the node is a left child, so its parent comes next
          have far : t.right v = s.root := h.parent_fields.2.2.2
          show (if t.right v = some x then _ else _) = _
          rw [if_neg (by rw [far]; exact h.root_ne rfl)]
          rfl

theorem exists_place_of_list (list : T.inorder = l ++ x :: r) (nodup : T.inorder.Nodup) :
    ∃ c a b path, plug (.node c a x b) path = T ∧ before path ++ a.inorder = l ∧ b.inorder ++ after path = r := by
  obtain ⟨c, a, b, path, whole⟩ := exists_place (t := T) (x := x) (by simp [list]) []
  have whole : plug (.node c a x b) path = T := whole
  have order : (before path ++ a.inorder) ++ x :: (b.inorder ++ after path) = l ++ x :: r := by
    rw [← list, ← whole, inorder_plug, ColorTree.inorder]
    simp
  have once := nodup
  rw [list, ← order, List.nodup_append, List.nodup_cons] at once
  obtain ⟨-, ⟨behind, -⟩, apart⟩ := once
  have front : x ∉ before path ++ a.inorder := fun mem => apart x mem x (List.mem_cons_self ..) rfl
  obtain ⟨same, -, same'⟩ := (List.append_cons_inj_of_notMem front behind).mp order
  exact ⟨c, a, b, path, whole, same, same'⟩

theorem treeDequeue_spec (h : Holds s (l ++ x :: r)) : ∃ tree left,
    s.treeDequeue x = some (vacated s tree left) ∧ Holds (vacated s tree left) (l ++ r) := by
  have nodup := h.nodup
  obtain ⟨⟨T, n, stored, balanced, list⟩, leftMost, count⟩ := h
  obtain ⟨c, a, b, path, rfl, front, back⟩ := exists_place_of_list list stored.nodup
  have enough : (plug (.node c a x b) path).inorder.length < s.nrRunning + 1 := by
    rw [list, count]
    exact Nat.lt_succ_self _
  obtain ⟨tree, U, m, erased, storedU, balancedU, orderU⟩ := erase_rebuilds enough stored balanced
  have order : U.inorder = l ++ r := by
    rw [orderU, ← front, ← back]
    simp
  have fewer : s.nrRunning - 1 = (l ++ r).length := by
    rw [count]
    simp
  refine ⟨tree, (l ++ r).head?, ?_, ⟨U, m, storedU, balancedU, order⟩, rfl, fewer⟩
  cases l with
  | nil =>
    -- the first node leaves, and `rb_next` finds the second one
    obtain ⟨first, empty⟩ := List.append_eq_nil_iff.mp front
    cases a with
    | node k l z r => simp [ColorTree.inorder] at empty
    | leaf =>
      have shallow : b.inorder.length < s.nrRunning + 1 := by
        rw [length_inorder_plug] at enough
        simp only [ColorTree.inorder, List.length_append, List.length_cons] at enough
        omega
      have next := next_first (stored_plug.mp stored) first shallow
      rw [back] at next
      simp [Scheduler.treeDequeue, leftMost, next, erased, vacated]
  | cons y l =>
    have other : y ≠ x := by
      rintro rfl
      exact (List.nodup_cons.mp nodup).1 (by simp)
    simp [Scheduler.treeDequeue, leftMost, other, erased, vacated]

end Illinix.Verified.Cfs
