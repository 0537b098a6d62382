import Illinix.Verified.Cfs.RunQueue

/-! # The balance of the run queue

The red-black invariant read from the memory: the colours of the nodes that the pointers lead to, and the
number of black nodes on every way from the root to a null pointer.  It holds after every sequence of
`__enqueue_entity` and `__dequeue_entity`, with keys that may change at any time, since neither the tree
nor the proof depends on their order.  That a call returns says that no null pointer was followed and that
the loops of `rb_insert_color` and `__rb_erase_color` came to an end. -/

namespace Illinix.Verified.Cfs

open Kernel List
open Lib (Side Color Run)
open Lib.RedBlack

variable {s u : Scheduler} {t : RbTree} {T : ColorTree Nat} {p : Option Nat} {x y : Nat} {c : Color}
  {n blacks nodes : Nat} {q : List Nat}

/-! ## The tree in memory -/

/-- The pointers from the root lead to the node. -/
inductive InTree (t : RbTree) : Nat → Prop where
  | root {x : Nat} : t.root = some x → InTree t x
  | child {x y : Nat} {d : Side} : InTree t x → t.child d x = some y → InTree t y

/-- A way from a pointer down to a null pointer, with the number of its black nodes and of all its nodes. -/
inductive Way (t : RbTree) : Option Nat → Nat → Nat → Prop where
  | stop : Way t none 0 0
  | step {x blacks nodes : Nat} (d : Side) : Way t (t.child d x) blacks nodes →
      Way t (some x) (blacks + if t.color x = .black then 1 else 0) (nodes + 1)

structure IsRedBlack (t : RbTree) : Prop where
  root : ∀ x, t.root = some x → t.color x = .black
  red : ∀ x, InTree t x → t.color x = .red → ∀ d y, t.child d x = some y → t.color y = .black
  black : ∃ n, ∀ blacks nodes, Way t t.root blacks nodes → blacks = n

theorem Links.inTree (links : Links t p T) (top : ∀ x, T.root = some x → InTree t x) (mem : y ∈ T.inorder) :
    InTree t y := by
  induction T generalizing p with
  | leaf => cases mem
  | node c l x r ihl ihr =>
    obtain ⟨-, -, left, right, hl, hr⟩ := links
    have here : InTree t x := top x rfl
    rw [ColorTree.inorder, mem_append, mem_cons] at mem
    rcases mem with inL | rfl | inR
    · exact ihl hl (fun z root => .child here (left.trans root)) inL
    · exact here
    · exact ihr hr (fun z root => .child here (right.trans root)) inR

theorem Stored.exists_at (stored : Stored t T) (mem : x ∈ T.inorder) :
    ∃ c a b path, plug (.node c a x b) path = T ∧ At t (.node c a x b) path := by
  obtain ⟨c, a, b, path, whole⟩ := exists_place mem []
  exact ⟨c, a, b, path, whole, stored_plug.mp (whole ▸ stored)⟩

theorem Stored.inTree_iff (stored : Stored t T) : InTree t x ↔ x ∈ T.inorder := by
  constructor
  · intro inside
    induction inside with
    | root root => exact root_mem (stored.root.symm.trans root)
    | @child x y d _ next ih =>
      obtain ⟨c, a, b, path, rfl, place⟩ := stored.exists_at ih
      obtain ⟨-, -, left, right, -, -⟩ := place.here
      have below : y ∈ a.inorder ∨ y ∈ b.inorder := by
        cases d with
        | left => exact .inl (root_mem (left.symm.trans next))
        | right => exact .inr (root_mem (right.symm.trans next))
      rw [inorder_plug]
      rcases below with inA | inB
      · simp [ColorTree.inorder, inA]
      · simp [ColorTree.inorder, inB]
  · exact stored.links.inTree fun x root => .root (stored.root.trans root)

theorem Links.way (links : Links t p T) (balanced : Balanced T c n) (way : Way t T.root blacks nodes) :
    blacks = n ∧ nodes ≤ T.depth := by
  induction T generalizing p c n blacks nodes with
  | leaf =>
    cases balanced
    cases way
    exact ⟨rfl, Nat.le_refl _⟩
  | node k l x r ihl ihr =>
    obtain ⟨-, color, left, right, hl, hr⟩ := links
    cases way with
    | @step _ b w d way =>
      -- the way goes on in one of the two subtrees, which have the same number of black nodes
      have below : ∀ {m cl cr}, Balanced l cl m → Balanced r cr m → b = m ∧ w ≤ max l.depth r.depth := by
        intro m cl cr balancedL balancedR
        cases d with
        | left =>
          obtain ⟨same, depth⟩ := ihl hl balancedL (left ▸ way)
          exact ⟨same, Nat.le_trans depth (Nat.le_max_left _ _)⟩
        | right =>
          obtain ⟨same, depth⟩ := ihr hr balancedR (right ▸ way)
          exact ⟨same, Nat.le_trans depth (Nat.le_max_right _ _)⟩
      rw [color]
      cases balanced with
      | red balancedL balancedR =>
        obtain ⟨rfl, depth⟩ := below balancedL balancedR
        exact ⟨rfl, Nat.succ_le_succ depth⟩
      | black balancedL balancedR =>
        obtain ⟨rfl, depth⟩ := below balancedL balancedR
        exact ⟨rfl, Nat.succ_le_succ depth⟩

theorem Stored.isRedBlack (stored : Stored t T) (balanced : Balanced T .black n) : IsRedBlack t := by
  constructor
  · intro x root
    have here : T.root = some x := stored.root.symm.trans root
    rw [(stored_iff.mp stored).color_of_root here, balanced.color_eq]
  · intro x inside red d y next
    obtain ⟨k, a, b, path, rfl, place⟩ := stored.exists_at (stored.inTree_iff.mp inside)
    obtain ⟨-, color, left, right, ha, hb⟩ := place.here
    obtain rfl : k = .red := color.symm.trans red
    obtain ⟨c, _, m, here, -, -⟩ := balanced.unplug
    cases here with
    | red balancedA balancedB =>
      cases d with
      | left =>
        have found := isBlack_root ha
        rw [← left, next, balancedA.color_eq] at found
        exact of_decide_eq_true found
      | right =>
        have found := isBlack_root hb
        rw [← right, next, balancedB.color_eq] at found
        exact of_decide_eq_true found
  · refine ⟨n, fun blacks nodes way => ?_⟩
    rw [stored.root] at way
    exact (stored.links.way balanced way).1

/-! ## Runs -/

/-- The calls of `__enqueue_entity` and `__dequeue_entity`, and a change of the key of a task. -/
inductive QueueCall where
  | enqueue (task : Nat)
  | dequeue (task : Nat)
  | key (task : Nat) (vruntime : UInt64)
deriving DecidableEq, Repr

namespace QueueCall

def Legal (s : Scheduler) : QueueCall → Prop
  | enqueue task => ¬InTree s.rbTree task
  | dequeue task => InTree s.rbTree task
  | key _ _ => True

def exec (s : Scheduler) : QueueCall → Option Scheduler
  | enqueue task => s.treeEnqueue task
  | dequeue task => s.treeDequeue task
  | key task vruntime => some (s.modifySched task fun e => { e with vruntime })

end QueueCall

def QueueStep (s : Scheduler) (call : QueueCall) (u : Scheduler) : Prop :=
  call.Legal s ∧ call.exec s = some u

structure EmptyQueue (s : Scheduler) : Prop where
  root : s.rbTree.root = none
  leftMost : s.leftMost = none
  count : s.nrRunning = 0

theorem EmptyQueue.holds (empty : EmptyQueue s) : Holds s [] :=
  ⟨⟨.leaf, 0, ⟨empty.root, trivial, nodup_nil⟩, .leaf, rfl⟩, empty.leftMost, empty.count⟩

theorem Holds.inTree_iff (h : Holds s q) : InTree s.rbTree x ↔ x ∈ q := by
  obtain ⟨T, n, stored, -, rfl⟩ := h.tree
  exact stored.inTree_iff

/-- Every call returns, and leaves a queue. -/
theorem Holds.exec (h : Holds s q) {call : QueueCall} (legal : call.Legal s) :
    ∃ u q', call.exec s = some u ∧ Holds u q' := by
  cases call with
  | enqueue task =>
    have fresh : task ∉ q := fun mem => legal (h.inTree_iff.mpr mem)
    obtain ⟨tree, left, l, r, done, holds, -, -⟩ := treeEnqueue_spec h fresh
    exact ⟨_, _, done, holds⟩
  | dequeue task =>
    obtain ⟨l, r, rfl⟩ := append_of_mem (h.inTree_iff.mp legal)
    obtain ⟨tree, left, done, holds⟩ := treeDequeue_spec h
    exact ⟨_, _, done, holds⟩
  | key task vruntime => exact ⟨_, q, rfl, h.tree, h.leftMost, h.count⟩

theorem Holds.isRedBlack (h : Holds s q) : IsRedBlack s.rbTree := by
  obtain ⟨T, n, stored, balanced, -⟩ := h.tree
  exact stored.isRedBlack balanced

theorem Holds.way_le (h : Holds s q) (way : Way s.rbTree s.rbTree.root blacks nodes) :
    nodes ≤ 2 * Nat.log 2 (q.length + 1) := by
  obtain ⟨T, n, stored, balanced, rfl⟩ := h.tree
  rw [stored.root] at way
  exact Nat.le_trans (stored.links.way balanced way).2 balanced.depth_le_log

/-- After every sequence of calls the tree is a red-black tree, no way in it is longer than twice the binary
    logarithm of the number of its nodes and one, and every call returns. -/
theorem run_queue_balanced {calls : List QueueCall} (empty : EmptyQueue s) (run : Run QueueStep s calls u) :
    IsRedBlack u.rbTree ∧
      (∃ q : List Nat, q.Nodup ∧ (∀ x, x ∈ q ↔ InTree u.rbTree x) ∧
        ∀ blacks nodes, Way u.rbTree u.rbTree.root blacks nodes → nodes ≤ 2 * Nat.log 2 (q.length + 1)) ∧
      ∀ call : QueueCall, call.Legal u → ∃ v, call.exec u = some v := by
  have queue : ∃ q, Holds u q := by
    refine run.invariant (fun s call t (inv : ∃ q, Holds s q) step => ?_) ⟨[], empty.holds⟩
    obtain ⟨q, holds⟩ := inv
    obtain ⟨v, q', done, holds'⟩ := holds.exec step.1
    rw [step.2] at done
    cases done
    exact ⟨q', holds'⟩
  obtain ⟨q, holds⟩ := queue
  refine ⟨holds.isRedBlack, ⟨q, holds.nodup, fun x => holds.inTree_iff.symm, fun _ _ => holds.way_le⟩, ?_⟩
  intro call legal
  obtain ⟨v, -, done, -⟩ := holds.exec legal
  exact ⟨v, done⟩

/-- Different tasks can enter one after the other. -/
theorem Holds.exists_run_enqueue (h : Holds s q) {tasks : List Nat} (nodup : (tasks ++ q).Nodup) :
    ∃ u, Run QueueStep s (tasks.map .enqueue) u ∧ ∃ q', Holds u q' ∧ q'.Perm (tasks ++ q) := by
  induction tasks generalizing s q with
  | nil => exact ⟨s, .nil s, q, h, .refl q⟩
  | cons x tasks ih =>
    obtain ⟨fresh, rest⟩ := nodup_cons.mp nodup
    have new : x ∉ q := fun mem => fresh (mem_append_right tasks mem)
    obtain ⟨tree, left, l, r, done, holds, rfl, -⟩ := treeEnqueue_spec h new
    have order : (tasks ++ (l ++ x :: r)).Perm (x :: tasks ++ (l ++ r)) :=
      (perm_middle.append_left tasks).trans perm_middle
    obtain ⟨u, run, q', holds', same⟩ := ih holds (order.nodup_iff.mpr nodup)
    exact ⟨u, .cons ⟨fun inside => new (h.inTree_iff.mp inside), done⟩ run, q', holds', same.trans order⟩

theorem oneTask_empty : EmptyQueue oneTask := ⟨rfl, rfl, rfl⟩

/-- Seven tasks enter, and no way has more than six nodes. -/
theorem run_queue_balanced_seven : ∃ u, Run QueueStep oneTask ([1, 2, 3, 4, 5, 6, 7].map .enqueue) u ∧
    IsRedBlack u.rbTree ∧ (∀ blacks nodes, Way u.rbTree u.rbTree.root blacks nodes → nodes ≤ 6) ∧
    ∀ call : QueueCall, call.Legal u → ∃ v, call.exec u = some v := by
  obtain ⟨u, run, q, holds, same⟩ := oneTask_empty.holds.exists_run_enqueue
    (show ([1, 2, 3, 4, 5, 6, 7] ++ []).Nodup by decide)
  obtain ⟨redBlack, ⟨q', nodup, members, short⟩, returns⟩ := run_queue_balanced oneTask_empty run
  refine ⟨u, run, redBlack, fun blacks nodes way => ?_, returns⟩
  have perm : q'.Perm q :=
    (perm_ext_iff_of_nodup nodup holds.nodup).mpr fun x => (members x).trans holds.inTree_iff
  have seven : q'.length = 7 := (perm.trans same).length_eq
  have bound := short blacks nodes way
  rw [seven] at bound
  exact bound

end Illinix.Verified.Cfs
