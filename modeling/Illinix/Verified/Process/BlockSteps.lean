import Illinix.Verified.Process.BlockTree

/-! # Creating, moving and freeing processes

`process_create`, `place_children` and `process_free` keep the invariant of the tree.  The last does so
when the process has no children and all the blocks it gives back are its own. -/

namespace Illinix.Verified.Process

open Kernel Lib Function

namespace Ownership

variable {init : Nat} {phase : Phase} {s s' s'' : Ownership} {c current number p task : Nat}

/-! ## A new process -/

/-- A number that no process has. -/
structure Unused (init : Nat) (s : Ownership) (number : Nat) : Prop where
  known : number < s.begun
  none : ∀ q, Live init s q → (s.threads q).number ≠ number

theorem Unused.frame (unused : Unused init s number) (frame : Frame init s s') : Unused init s' number := by
  constructor
  · exact Nat.lt_of_lt_of_le unused.known frame.begun
  · intro q live
    have live := (frame.live q).mp live
    rw [(frame.thread q live).1]
    exact unused.none q live

theorem Unused.active (unused : Unused init s number) (q : Nat) (live : Live init s q)
    (same : (s.threads q).number = number) : Active phase s q :=
  absurd same (unused.none q live)

theorem pushChild_inv (done : s.pushChild task c = .ok s') : (s.threads task).children ≠ 0 ∧
      s' = (s.store (s.threads task).children (s.threads task).nChildren c).modify task fun t =>
        { t with nChildren := t.nChildren + 1 } := by
  unfold Ownership.pushChild at done
  simp only at done
  split at done
  · cases done
  · next array =>
    cases done
    exact ⟨array, rfl⟩

theorem modify_eq_self {f : Holdings → Holdings} (same : f (s.threads p) = s.threads p) : s.modify p f = s := by
  unfold Ownership.modify
  rw [same, update_eq_self]

theorem pushChild_eq_adopt (parent : (s.threads c).parent = task) (ne : c ≠ task)
    (done : s.pushChild task c = .ok s') : s' = withChild s task c := by
  rw [(pushChild_inv done).2]
  symm
  apply modify_eq_self
  rw [modify_threads_of_ne _ ne]
  show { s.threads c with parent := task } = s.threads c
  rw [← parent]

/-- What `process_create(current)` makes of the thread in `pages`. -/
structure Created (init : Nat) (s s' : Ownership) (pages : StackPages) (current number : Nat) : Prop where
  grown : Grown init .idle s s'
  new : ¬Live init s pages.addr
  nonzero : pages.addr ≠ 0
  queue : s'.taskQueue = s.taskQueue ++ [pages.addr]
  begun : s'.begun = s.begun
  thread : ∃ context mapList, s'.threads pages.addr =
      { pages.stale with
        number, parent := current, context, mapList, children := 0, nChildren := 0,
        maxChildren := maxChildren, state := .unused } ∧
    (context = 0 ∨ Holds s' number context .context) ∧ ∀ a ∈ mapList, Holds s' number a .area
  last : s'.lastChild current = .ok pages.addr

theorem Inv.setSize (ok : Inv init phase s) (size : UInt32) : Stays init phase s { s with size } :=
  ok.unchanged rfl rfl (Nat.le_refl _) ok.pool (fun _ mem => ⟨mem, rfl⟩) (fun _ _ => rfl) (fun _ _ => rfl)
    fun _ _ _ => rfl

theorem Inv.adopt_last (ok : Inv init phase s) (c : Nat) (live : Live init s task)
    (array : (s.threads task).children ≠ 0) : (withChild s task c).lastChild task = .ok c := by
  have count : ((withChild s task c).threads task).nChildren = (s.threads task).nChildren + 1 := by
    rw [withChild_nChildren, if_pos rfl]
  have children := @withChild_field s task c _ Holdings.children (fun _ _ _ => rfl) task
  have slot := ok.adopt_child (c := c) live array live (s.threads task).nChildren
  rw [if_pos ⟨rfl, rfl⟩, child] at slot
  unfold Ownership.lastChild
  rw [if_neg (by omega), if_neg (by rwa [children]), count, Nat.add_sub_cancel, slot, pure_eq_ok]

/-- The slot for a new thread, which no slot points to yet. -/
theorem Inv.linkChild {t : Nat} (ok : Inv init (.creating t) s) (live : Live init s current)
    (active : Active (.creating t) s current) (ne : t ≠ current) (reserved : t ∈ s.reserved)
    (parent : (s.threads t).parent = current)
    (apart : ∀ q, Live init s q → Active (.creating t) s q → ∀ i < (s.threads q).nChildren, child s q i ≠ t)
    (init_done : s.childrenInit current = .ok s') {s₁ s2 : Ownership}
    (overflow : s'.overflowChildren current = .ok s₁) (push : s₁.pushChild current t = .ok s2) :
    Grown init (.creating t) s s2 ∧ s2.threads t = s.threads t ∧ s2.taskQueue = s.taskQueue ∧ s2.begun = s.begun ∧
      s2.reserved = s.reserved ∧ (∀ q, (s2.threads q).number = (s.threads q).number) ∧
      (∀ q, Active (.creating t) s2 q ↔ Active (.creating t) s q) ∧ s2.lastChild current = .ok t := by
  obtain ⟨first, resized, array⟩ := ok.childrenInit live active init_done
  have live' := (first.frame.live current).mpr live
  obtain ⟨second, resized', array', room⟩ :=
    first.inv.overflowChildren live' ((first.frame.active live).mpr active) overflow
  have both := first.trans second
  obtain ⟨⟨a, m, threads⟩, begun, same⟩ := resized.trans resized'
  have thread : s₁.threads t = s.threads t := by rw [threads, update_of_ne ne]
  have field : ∀ {α : Type} (g : Holdings → α),
      (∀ h c n, g { h with children := c, maxChildren := n } = g h) →
      ∀ q, g (s₁.threads q) = g (s.threads q) := by
    intro α g stable q
    rw [threads, update_apply]
    split
    · next eq => rw [stable, eq]
    · rfl
  have live'' := (both.frame.live current).mpr live
  have adopted : s2 = withChild s₁ current t := pushChild_eq_adopt (thread ▸ parent) ne push
  have grown := both.inv.adopt live'' ((both.frame.active live).mpr active) (array' array) room
    (same ▸ reserved) (.inr rfl) fun q hq hactive i below => by
      have hq := (both.frame.live q).mp hq
      rw [(both.frame.thread q hq).2.2] at below
      rw [both.frame.slots q hq i below]
      exact apart q hq ((both.frame.active hq).mp hactive) i below
  refine ⟨adopted ▸ both.toGrown.trans grown, ?_, ?_, ?_, ?_, ?_, ?_, ?_⟩
  · rw [(pushChild_inv push).2, modify_threads_of_ne _ ne]
    exact thread
  · rw [adopted]
    exact both.frame.queue
  · rw [adopted]
    exact begun
  · rw [adopted]
    exact same
  · intro q
    rw [adopted, withChild_field Holdings.number (fun _ _ _ => rfl), field Holdings.number (fun _ _ _ => rfl)]
  · intro q
    unfold Active
    rw [adopted, withChild_field Holdings.state (fun _ _ _ => rfl), field Holdings.state (fun _ _ _ => rfl)]
  · rw [adopted]
    exact both.inv.adopt_last t live'' (array' array)

theorem lastChild_eq_ok : s.lastChild task = .ok c ↔
    (s.threads task).nChildren ≠ 0 ∧ (s.threads task).children ≠ 0 ∧
      child s task ((s.threads task).nChildren - 1) = c := by
  unfold Ownership.lastChild child
  simp only
  split
  · next none => simp [none]
  · next some =>
    split
    · next null => simp [null]
    · next array => simp [some, array]

/-- The pages of a new thread, with its number and parent. -/
def withPages (s : Ownership) (pages : StackPages) (current number : Nat) : Ownership :=
  s.modify pages.addr fun t => { t with number, parent := current }

/-- A new context for a thread. -/
def withContext (s : Ownership) (t number : Nat) : Ownership :=
  (s.kmalloc number .context).2.modify t fun h =>
    { h with context := (s.kmalloc number .context).1 }

/-- The fields that `process_create` sets last. -/
def withFields (s : Ownership) (t : Nat) : Ownership :=
  s.modify t fun h =>
    { h with children := 0, nChildren := 0, maxChildren := Kernel.maxChildren, state := .unused }

theorem Inv.createPages (ok : Inv init .idle s) {pages : StackPages} (current : Nat)
    (unused : Unused init s number) (alloc : s.allocKstack pages = .ok s') :
    Stays init .idle s (withContext (withPages s' pages current number) pages.addr number) ∧
      pages.addr ∈ (withContext (withPages s' pages current number) pages.addr number).reserved ∧
      s'.begun = s.begun ∧
      ∃ context, (withContext (withPages s' pages current number) pages.addr number).threads pages.addr =
          { pages.stale with number, parent := current, context } ∧
        (context = 0 ∨
          Holds (withContext (withPages s' pages current number) pages.addr number) number context .context) := by
  obtain ⟨nonzero, free, same⟩ := allocKstack_inv alloc
  have new : ¬Live init s pages.addr := fun hq => free (.inr (ok.tree.stack _ hq))
  have stays : Stays init .idle s (withPages s' pages current number) := ok.allocKstack _ alloc
  have unused' := unused.frame stays.frame
  have context := stays.inv.kmalloc .context unused'.known unused'.active
  have outside := fun hq => new (((stays.trans context).frame.live pages.addr).mp hq)
  have thread : (withPages s' pages current number).threads pages.addr =
      { pages.stale with number, parent := current } := by
    unfold withPages
    rw [modify_threads_self, same]
    simp
  have begun : s'.begun = s.begun := by rw [same]
  refine ⟨(stays.trans context).trans (context.inv.modify outside rfl), ?_, begun, ?_⟩
  · show pages.addr ∈ ((withPages s' pages current number).kmalloc number .context).2.reserved
    rw [reserved_kmalloc, withPages, same]
    exact List.mem_cons_self ..
  · unfold withContext
    refine ⟨((withPages s' pages current number).kmalloc number .context).1, ?_, ?_⟩
    · rw [modify_threads_self, threads_kmalloc, thread]
    · by_cases zero : ((withPages s' pages current number).kmalloc number .context).1 = 0
      · exact .inl zero
      · exact .inr (holds_kmalloc zero)

/-- The areas of a thread that has a slot; then it enters `task_queue`. -/
theorem Inv.createFinish {t : Nat} {areas : List Nat} (ok : Inv init (.creating t) s)
    (new : ¬Live init s t) (live : Live init s current) (active : Active (.creating t) s current)
    (unused : Unused init s number) (reserved : t ∈ s.reserved) (numbered : (s.threads t).number = number)
    (parent : (s.threads t).parent = current) (last : s.lastChild current = .ok t)
    (done : (withFields s t).processVmInit number = .ok (areas, s')) :
    Grown init .idle s { s'.modify t fun t => { t with mapList := areas } with
      taskQueue := s'.taskQueue ++ [t] } := by
  have ne : current ≠ t := fun eq => new (eq ▸ live)
  have fields : Stays init (.creating t) s (withFields s t) := ok.modify new rfl
  have unused' := unused.frame fields.frame
  have created := fields.trans (fields.inv.areasCreate unused'.known unused'.active done)
  obtain ⟨-, -, -, ⟨pool, rfl, same⟩, -⟩ := areasCreate_inv done
  have stays := created.trans (created.inv.modify (f := fun t => { t with mapList := areas }) new rfl)
  have other : ∀ q ≠ t, (Ownership.modify { withFields s t with toPool := pool } t fun t =>
      { t with mapList := areas }).threads q = s.threads q := by
    intro q hq
    rw [modify_threads_of_ne _ hq]
    show (withFields s t).threads q = _
    rw [withFields, modify_threads_of_ne _ hq]
  have thread : (Ownership.modify { withFields s t with toPool := pool } t fun t =>
      { t with mapList := areas }).threads t = { s.threads t with
        children := 0, nChildren := 0, maxChildren := Kernel.maxChildren, state := .unused,
        mapList := areas } := by
    simp [withFields]
  obtain ⟨some, -, slot⟩ := lastChild_eq_ok.mp last
  refine stays.keeps.grown (stays.inv.enqueue new ?_ ?_ ?_ ?_ ?_ ?_ ?_ ?_) <;> try rw [thread]
  · show t ∈ pool.reserved
    rw [same]
    exact reserved
  · show (s.threads t).number < s.begun
    rw [numbered]
    exact unused.known
  · intro q hq
    rw [other q fun eq => new (eq ▸ hq)]
    show (s.threads q).number ≠ (s.threads t).number
    rw [numbered]
    exact unused.none q hq
  · constructor
    case large => exact Nat.le_of_eq (congrArg Holdings.maxChildren thread).symm
    all_goals rw [thread]
    · exact fun nonzero => absurd rfl nonzero
    · exact fun _ => rfl
    · exact Nat.zero_le _
    · exact fun nonzero => absurd rfl nonzero
    · exact fun i below => absurd below (Nat.not_lt_zero i)
  · show Live init s (s.threads t).parent
    rwa [parent]
  · show Active (.creating t) _ (s.threads t).parent
    unfold Active
    rw [parent, other current ne]
    exact active
  · show ∃ i < ((Ownership.modify _ t _).threads (s.threads t).parent).nChildren,
      child _ (s.threads t).parent i = t
    rw [parent, other current ne]
    refine ⟨(s.threads current).nChildren - 1, by omega, ?_⟩
    unfold child
    rw [other current ne]
    exact slot

theorem Inv.processCreate (ok : Inv init .idle s) {pages : StackPages} (live : Live init s current)
    (active : Active .idle s current) (unused : Unused init s number)
    (done : s.processCreate pages current number = .ok s') : Created init s s' pages current number := by
  unfold Ownership.processCreate at done
  obtain ⟨s1, alloc, done⟩ := bind_eq_ok.mp done
  obtain ⟨s5, first, done⟩ := bind_eq_ok.mp done
  obtain ⟨s6, overflow, done⟩ := bind_eq_ok.mp done
  obtain ⟨s7, push, done⟩ := bind_eq_ok.mp done
  obtain ⟨⟨mapList, s9⟩, areas, done⟩ := bind_eq_ok.mp done
  cases done
  obtain ⟨nonzero, free, -⟩ := allocKstack_inv alloc
  have new : ¬Live init s pages.addr := fun hq => free (.inr (ok.tree.stack _ hq))
  have ne : pages.addr ≠ current := fun eq => new (eq ▸ live)
  have sized := ok.setSize (allocPid s.size).1
  obtain ⟨pages_stay, reserved, begun, context, thread, held⟩ :=
    sized.inv.createPages current (unused.frame sized.frame) alloc
  have stays := sized.trans pages_stay
  change (withContext (withPages s1 pages current number) pages.addr number).childrenInit current = _ at first
  have begun4 : (withContext (withPages s1 pages current number) pages.addr number).begun = s.begun := begun
  generalize withContext (withPages s1 pages current number) pages.addr number = s4 at *
  -- no slot of an active process points to the new pages
  have apart : ∀ q, Live init s4 q → Active (.creating pages.addr) s4 q →
      ∀ i < (s4.threads q).nChildren, child s4 q i ≠ pages.addr := by
    intro q hq hactive i below hit
    have hactive := (active_creating q).mp hactive
    have hq := (stays.frame.live q).mp hq
    rw [(stays.frame.thread q hq).2.2] at below
    rw [stays.frame.slots q hq i below] at hit
    have mem := (ok.tree.slot q hq ((stays.frame.active hq).mp hactive) i below).1
    exact free (.inr (hit ▸ mem))
  have live4 := (stays.frame.live current).mpr live
  have active4 : Active (.creating pages.addr) s4 current :=
    (active_creating current).mpr ((stays.frame.active live).mpr active)
  obtain ⟨link, thread7, queue7, begun7, reserved7, numbers7, active7, last7⟩ :=
    (stays.inv.creating pages.addr).linkChild live4 active4 ne reserved (by rw [thread]) apart first overflow push
  have live7 : ∀ q, Live init s7 q ↔ Live init s q := by
    intro q
    rw [← stays.frame.live q]
    unfold Live
    rw [queue7]
  have unused7 : Unused init s7 number := by
    refine ⟨begun7.trans begun4 ▸ unused.known, fun q hq => ?_⟩
    rw [numbers7]
    exact (unused.frame stays.frame).none q ((stays.frame.live q).mpr ((live7 q).mp hq))
  have finish := link.inv.createFinish (fun hq => new ((live7 _).mp hq)) ((live7 _).mpr live)
    ((active7 current).mpr active4) unused7 (reserved7 ▸ reserved) (by rw [thread7, thread])
    (by rw [thread7, thread]) last7 areas
  obtain ⟨-, -, held_areas, ⟨pool, rfl, -⟩, -⟩ := areasCreate_inv areas
  constructor
  · exact (stays.keeps.trans link.keeps).grown finish
  · exact new
  · exact nonzero
  · show s7.taskQueue ++ [pages.addr] = s.taskQueue ++ [pages.addr]
    rw [queue7, stays.frame.queue]
  · exact begun7.trans begun4
  · refine ⟨context, mapList, ?_, ?_, fun a mem => (held_areas a mem).2.2⟩
    · simp [Ownership.modify, thread7, thread]
    · exact held.imp_right fun held =>
        (link.keeps.trans finish.keeps).holds held (by decide) (by decide)
  · rw [lastChild_eq_ok] at last7 ⊢
    simpa [Ownership.modify, child, update_of_ne ne.symm] using last7

/-! ## Exit -/

theorem Inv.exited (ok : Inv init phase s) (other : p ≠ init)
    (only : ∀ q, phase = .leaving q → q = p) (idle : ∀ c, phase ≠ .creating c)
    (childless : ∀ d ∈ s.taskQueue, (s.threads d).parent ≠ p) :
    Inv init .idle (s.modify p fun t => { t with state := .exited }) := by
  have field : ∀ {α : Type} (g : Holdings → α), (∀ t state, g { t with state } = g t) → ∀ q,
      g ((s.modify p fun t => { t with state := .exited }).threads q) = g (s.threads q) :=
    fun g stable q => modify_field g (stable _ _) q
  have number := field Holdings.number fun _ _ => rfl
  have parent := field Holdings.parent fun _ _ => rfl
  have array := field Holdings.children fun _ _ => rfl
  have count := field Holdings.nChildren fun _ _ => rfl
  have size := field Holdings.maxChildren fun _ _ => rfl
  have slots : ∀ q i, child (s.modify p fun t => { t with state := .exited }) q i = child s q i := by
    intro q i
    unfold child
    rw [array]
    rfl
  -- the active processes are those of `s`, without `p`
  have active : ∀ q, Active .idle (s.modify p fun t => { t with state := .exited }) q ↔
      Active phase s q ∧ q ≠ p := by
    intro q
    unfold Active
    by_cases eq : q = p
    · subst eq
      simp
    · rw [modify_threads_of_ne _ eq]
      have : phase ≠ .leaving q := fun leave => eq (only q leave)
      simp [eq, this]
  refine ⟨?_, ok.pool, ok.owners, ?_⟩
  · constructor
    · exact ok.tree.nodup
    · exact ok.tree.root
    · exact (active init).mpr ⟨ok.tree.rootActive, other.symm⟩
    · exact ok.tree.stack
    · intro q hq
      rw [number]
      exact ok.tree.number q hq
    · intro q r hq hr same
      rw [number, number] at same
      exact ok.tree.distinct q r hq hr same
    · intro q hq hactive i below
      rw [slots, parent]
      rw [count] at below
      exact ok.tree.slot q hq ((active q).mp hactive).1 i below
    · intro q hq hactive i below
      rw [slots]
      rw [count] at below
      exact .inl ((ok.tree.queued q hq ((active q).mp hactive).1 i below).resolve_right (idle _))
    · intro q hq hactive i hi j hj same
      rw [slots, slots] at same
      rw [count] at hi hj
      exact ok.tree.once q hq ((active q).mp hactive).1 i hi j hj same
    · intro d queued
      obtain ⟨live, hactive, i, below, slot⟩ := ok.tree.parent d queued
      rw [parent, count]
      refine ⟨live, .inl ((active _).mpr ⟨?_, childless d queued⟩), i, below, ?_⟩
      · cases hactive with
        | inl hactive => exact hactive
        | inr leave => exact absurd (only _ leave) (childless d queued)
      · rw [slots]
        exact slot
  · intro q hq
    exact (ok.arrays q hq).congr (number q) (array q) (count q) (size q) (fun _ => rfl) id (fun _ => id)
      (fun _ _ _ => id)

theorem placeChild_inv {parent i : Nat} (done : s.placeChild task parent i = .ok s') :
    ∃ s₁, s.overflowChildren parent = .ok s₁ ∧ (s₁.threads parent).children ≠ 0 ∧
      s' = withChild s₁ parent (child s₁ task i) := by
  unfold Ownership.placeChild at done
  obtain ⟨s₁, overflow, done⟩ := bind_eq_ok.mp done
  obtain ⟨s2, push, done⟩ := bind_eq_ok.mp done
  cases done
  obtain ⟨array, rfl⟩ := pushChild_inv push
  exact ⟨s₁, overflow, array, rfl⟩

/-- `place_children` of `p` has moved `k` children to the parent `g`. -/
structure Placing (init p g : Nat) (start s : Ownership) (k : Nat) : Prop where
  inv : Inv init (.leaving p) s
  keeps : Keeps init start s
  queue : s.taskQueue = start.taskQueue
  count : (s.threads p).nChildren = (start.threads p).nChildren
  own : (s.threads p).parent = g
  active : (s.threads g).state ≠ .exited
  slots : ∀ j < (start.threads p).nChildren, child s p j = child start p j ∧ child start p j ∈ s.reserved
  queued : ∀ j < (start.threads p).nChildren, child start p j ∈ start.taskQueue
  parents : ∀ j < (start.threads p).nChildren,
    (s.threads (child start p j)).parent = if j < k then g else p

section

variable {p g k : Nat} {start : Ownership}

theorem Placing.live (placing : Placing init p g start s k) (queued : p ∈ start.taskQueue) :
    Live init s p ∧ Live init s g := by
  have queued : p ∈ s.taskQueue := placing.queue ▸ queued
  exact ⟨.inr queued, placing.own ▸ (placing.inv.tree.parent p queued).1⟩

theorem Placing.step (placing : Placing init p g start s k) (ne : g ≠ p) (queued : p ∈ start.taskQueue)
    (once : ∀ i < (start.threads p).nChildren, ∀ j < (start.threads p).nChildren,
      child start p i = child start p j → i = j)
    (below : k < (start.threads p).nChildren) (done : s.placeChild p g k = .ok s') :
    Placing init p g start s' (k + 1) := by
  obtain ⟨s₁, overflow, array, rfl⟩ := placeChild_inv done
  obtain ⟨live, glive⟩ := placing.live queued
  have gactive : Active (.leaving p) s g := ⟨placing.active, fun eq => ne (Phase.leaving.inj eq).symm⟩
  obtain ⟨stays, -, -, room⟩ := placing.inv.overflowChildren glive gactive overflow
  have frame := stays.frame
  have slots : ∀ j < (start.threads p).nChildren,
      child s₁ p j = child start p j ∧ child start p j ∈ s₁.reserved := by
    intro j hj
    rw [frame.slots p live j (placing.count ▸ hj)]
    exact ⟨(placing.slots j hj).1, (frame.reserved _ (placing.slots j hj).2).1⟩
  have parents : ∀ j < (start.threads p).nChildren,
      (s₁.threads (child start p j)).parent = if j < k then g else p := by
    intro j hj
    rw [(frame.reserved _ (placing.slots j hj).2).2]
    exact placing.parents j hj
  rw [(slots k below).1]
  -- the child that is moved has the parent `p`, so that it is in no array but that of `p`
  have apart : ∀ q, Live init s₁ q → Active (.leaving p) s₁ q → ∀ i < (s₁.threads q).nChildren,
      child s₁ q i ≠ child start p k := by
    intro q hq hactive i hi hit
    have parent := (stays.inv.tree.slot q hq hactive i hi).2
    rw [hit, parents k below, if_neg (Nat.lt_irrefl k)] at parent
    exact hactive.2 (congrArg Phase.leaving parent)
  have glive1 := (frame.live g).mpr glive
  have live1 := (frame.live p).mpr live
  have grown := stays.inv.adopt glive1 ((frame.active glive).mpr gactive) array room (slots k below).2
    (.inl (frame.queue.trans placing.queue ▸ placing.queued k below)) apart
  have own : (s₁.threads p).parent = g :=
    (frame.reserved p (placing.inv.tree.stack p live)).2.trans placing.own
  constructor
  · exact grown.inv
  · exact placing.keeps.trans (stays.keeps.trans grown.keeps)
  · exact frame.queue.trans placing.queue
  · rw [withChild_nChildren, if_neg ne.symm, (frame.thread p live).2.2]
    exact placing.count
  · rw [withChild_parent, own]
    split <;> rfl
  · rw [withChild_field Holdings.state (fun _ _ _ => rfl), (frame.thread g glive).2.1]
    exact placing.active
  · intro j hj
    rw [stays.inv.adopt_child glive1 array live1, if_neg fun last => ne last.1.symm]
    exact slots j hj
  · exact placing.queued
  · intro j hj
    rw [withChild_parent]
    split
    · next eq =>
      rw [once j hj k below eq, if_pos (Nat.lt_succ_self k)]
    · next other =>
      have : j ≠ k := fun eq => other (by rw [eq])
      rw [parents j hj]
      split_ifs <;> omega

theorem Inv.leave (ok : Inv init .idle s) (other : p ≠ init) : Inv init (.leaving p) s := by
  apply ok.rephase
  · exact fun q active => ⟨active.1, by simp⟩
  · exact ⟨ok.tree.rootActive.1, fun eq => other (Phase.leaving.inj eq)⟩
  · intro q active
    by_cases eq : p = q
    · exact .inr (congrArg Phase.leaving eq)
    · exact .inl ⟨active.1, fun same => eq (Phase.leaving.inj same)⟩

/-- `do_exit`: the children are moved to the parent, and the process is left without any. -/
theorem Inv.doExit (ok : Inv init .idle s) (queued : p ∈ s.taskQueue) (active : Active .idle s p)
    (done : s.doExit p = .ok s') : Grown init .idle s s' ∧ s'.taskQueue = s.taskQueue := by
  unfold Ownership.doExit at done
  obtain ⟨s₁, place, done⟩ := bind_eq_ok.mp done
  cases done
  have other : p ≠ init := by
    rintro rfl
    exact ok.tree.root queued
  obtain ⟨-, gactive, -⟩ := ok.tree.parent p queued
  unfold Ownership.placeChildren at place
  simp only at place
  split at place
  · cases place
  · next ends =>
    rw [not_and_or, not_not] at ends
    have start : Placing init p (s.threads p).parent s s 0 := by
      refine ⟨ok.leave other, .refl s, rfl, rfl, rfl, ?_, ?_, ?_, ?_⟩
      · exact (gactive.resolve_right (by simp)).1
      · exact fun j hj => ⟨rfl, (ok.tree.slot p (.inr queued) active j hj).1⟩
      · exact fun j hj => (ok.tree.queued p (.inr queued) active j hj).resolve_right (by simp)
      · exact fun j hj => (ok.tree.slot p (.inr queued) active j hj).2
    have placed : Placing init p (s.threads p).parent s s₁ (s.threads p).nChildren := by
      refine foldlM_range_inv (P := fun k t => Placing init p (s.threads p).parent s t k) start ?_ place
      intro i a b below placing done
      have ne : (s.threads p).parent ≠ p := ends.resolve_left (by omega)
      exact placing.step ne queued (ok.tree.once p (.inr queued) active) below done
    refine ⟨⟨?_, ?_⟩, placed.queue⟩
    · apply placed.inv.exited other
      · exact fun q eq => (Phase.leaving.inj eq).symm
      · simp
      · intro d among parent
        obtain ⟨-, -, i, below, slot⟩ := placed.inv.tree.parent d among
        rw [parent, placed.count] at below
        rw [parent, (placed.slots i below).1] at slot
        have moved := placed.parents i below
        rw [slot, parent, if_pos below] at moved
        exact ends.resolve_left (by omega) moved.symm
    · refine placed.keeps.trans ⟨fun _ mem => mem, ?_, fun _ mem _ _ => mem, fun _ _ _ => rfl⟩
      exact fun q _ => ⟨modify_field Holdings.number rfl q, modify_field Holdings.context rfl q,
        modify_field Holdings.fds rfl q, modify_field Holdings.argv rfl q⟩

end

/-! ## Freeing -/

/-- The memory without the process `c`, the last child of `g`. -/
def withoutChild (s : Ownership) (c g : Nat) : Ownership :=
  (({ s with
    toPool := s.toPool.unreserve c
    taskQueue := s.taskQueue.erase c } : Ownership).store (s.threads g).children
      ((s.threads g).nChildren - 1) 0).modify g fun t => { t with nChildren := t.nChildren - 1 }

theorem processFree_eq (done : s.processFree p = .ok s') (nonzero : p ≠ 0) :
    (s.threads (s.threads p).parent).children ≠ 0 ∧ s' = { withoutChild s p (s.threads p).parent with
        toPool := (withoutChild s p (s.threads p).parent).toPool.releaseAll (freedBlocks s p)
        size := killPid s.size } := by
  obtain ⟨-, -, array, same⟩ := processFree_inv done nonzero
  refine ⟨array, same.trans ?_⟩
  unfold withoutChild Ownership.store Ownership.modify Pool.unreserve
  simp only [Pool.releaseAll_eq]

section

variable {c : Nat}

theorem Inv.live_withoutChild (ok : Inv init .idle s) (queued : c ∈ s.taskQueue) (g q : Nat) :
    Live init (withoutChild s c g) q ↔ Live init s q ∧ q ≠ c := by
  show q = init ∨ q ∈ s.taskQueue.erase c ↔ _
  rw [ok.tree.nodup.mem_erase_iff]
  constructor
  · rintro (rfl | ⟨ne, mem⟩)
    · exact ⟨.inl rfl, fun eq => ok.tree.root (eq ▸ queued)⟩
    · exact ⟨.inr mem, ne⟩
  · rintro ⟨rfl | mem, ne⟩
    · exact .inl rfl
    · exact .inr ⟨ne, mem⟩

theorem withoutChild_field {α : Type} (g : Holdings → α) (stable : ∀ t n, g { t with nChildren := n } = g t)
    (p q : Nat) : g ((withoutChild s c p).threads q) = g (s.threads q) := by
  unfold withoutChild
  rw [modify_field g (stable _ _)]
  rfl

theorem withoutChild_nChildren (g q : Nat) : ((withoutChild s c g).threads q).nChildren =
    if q = g then (s.threads q).nChildren - 1 else (s.threads q).nChildren := by
  unfold withoutChild
  split
  · next eq =>
    rw [eq, modify_threads_self]
    rfl
  · next ne =>
    rw [modify_threads_of_ne _ ne]
    rfl

theorem withoutChild_active (g q : Nat) : Active phase (withoutChild s c g) q ↔ Active phase s q := by
  unfold Active
  rw [withoutChild_field Holdings.state (fun _ _ => rfl)]

variable {g : Nat}

section

variable (ok : Inv init .idle s)

include ok

theorem Inv.words_withoutChild (glive : Live init s g)
    (array : (s.threads g).children ≠ 0) {q : Nat} (hq : Live init s q) (ne : q ≠ g) :
    (withoutChild s c g).words (s.threads q).children = s.words (s.threads q).children :=
  store_words_of_ne _ _ (ok.array_ne hq glive array ne)

/-- Only the last slot of `g` is another one. -/
theorem Inv.child_withoutChild (glive : Live init s g)
    (array : (s.threads g).children ≠ 0) {q : Nat} (hq : Live init s q) {i : Nat}
    (below : i < ((withoutChild s c g).threads q).nChildren) :
    child (withoutChild s c g) q i = child s q i := by
  rw [withoutChild_nChildren] at below
  unfold child
  rw [withoutChild_field Holdings.children (fun _ _ => rfl)]
  split at below
  · next eq =>
    subst eq
    show ((Ownership.store _ _ _ _).words (s.threads q).children) i = _
    rw [store_words_self, if_neg (by omega)]
  · next ne => rw [ok.words_withoutChild glive array hq ne]

theorem Inv.withoutChild_tree (queued : c ∈ s.taskQueue)
    (childless : (s.threads c).nChildren = 0) (parent : (s.threads c).parent = g)
    (last : s.lastChild g = .ok c) : TreeOk init .idle (withoutChild s c g) := by
  obtain ⟨some, array, slot⟩ := lastChild_eq_ok.mp last
  obtain ⟨glive, gactive, -⟩ := ok.tree.parent c queued
  rw [parent] at glive gactive
  have gactive := gactive.resolve_right (by simp)
  have live := ok.live_withoutChild queued g
  have number := @withoutChild_field s c _ Holdings.number (fun _ _ => rfl) g
  have parents := @withoutChild_field s c _ Holdings.parent (fun _ _ => rfl) g
  have fewer : ∀ q, ((withoutChild s c g).threads q).nChildren ≤ (s.threads q).nChildren := by
    intro q
    rw [withoutChild_nChildren]
    split <;> omega
  -- `c` is in the last slot of `g` only
  have other : ∀ q, Live init s q → Active .idle s q →
      ∀ i < ((withoutChild s c g).threads q).nChildren, child s q i ≠ c := by
    intro q hq hactive i below hit
    have hi := Nat.lt_of_lt_of_le below (fewer q)
    have here := (ok.tree.slot q hq hactive i hi).2
    rw [hit, parent] at here
    subst here
    have := ok.tree.once g glive gactive i hi _ (by omega) (hit.trans slot.symm)
    rw [withoutChild_nChildren, if_pos rfl] at below
    omega
  constructor
  · exact ok.tree.nodup.erase c
  · exact fun mem => ok.tree.root (List.mem_of_mem_erase mem)
  · exact (withoutChild_active g init).mpr ok.tree.rootActive
  · intro q hq
    obtain ⟨hq, ne⟩ := (live q).mp hq
    exact ok.pool.reservedNodup.mem_erase_iff.mpr ⟨ne, ok.tree.stack q hq⟩
  · intro q hq
    rw [number]
    exact ok.tree.number q ((live q).mp hq).1
  · intro q r hq hr same
    rw [number, number] at same
    exact ok.tree.distinct q r ((live q).mp hq).1 ((live r).mp hr).1 same
  · intro q hq hactive i below
    have hq := ((live q).mp hq).1
    have hactive := (withoutChild_active g q).mp hactive
    obtain ⟨mem, here⟩ := ok.tree.slot q hq hactive i (Nat.lt_of_lt_of_le below (fewer q))
    rw [ok.child_withoutChild glive array hq below, parents]
    exact ⟨ok.pool.reservedNodup.mem_erase_iff.mpr ⟨other q hq hactive i below, mem⟩, here⟩
  · intro q hq hactive i below
    have hq := ((live q).mp hq).1
    have hactive := (withoutChild_active g q).mp hactive
    have mem := (ok.tree.queued q hq hactive i (Nat.lt_of_lt_of_le below (fewer q))).resolve_right (by simp)
    rw [ok.child_withoutChild glive array hq below]
    exact .inl (ok.tree.nodup.mem_erase_iff.mpr ⟨other q hq hactive i below, mem⟩)
  · intro q hq hactive i hi j hj same
    have hq := ((live q).mp hq).1
    rw [ok.child_withoutChild glive array hq hi, ok.child_withoutChild glive array hq hj] at same
    exact ok.tree.once q hq ((withoutChild_active g q).mp hactive) i (Nat.lt_of_lt_of_le hi (fewer q)) j
      (Nat.lt_of_lt_of_le hj (fewer q)) same
  · intro d among
    obtain ⟨dne, among⟩ := ok.tree.nodup.mem_erase_iff.mp among
    obtain ⟨plive, pactive, i, below, here⟩ := ok.tree.parent d among
    rw [parents]
    have pne : (s.threads d).parent ≠ c := by
      intro eq
      rw [eq, childless] at below
      omega
    have within : i < ((withoutChild s c g).threads (s.threads d).parent).nChildren := by
      rw [withoutChild_nChildren]
      split
      · next eq =>
        have : i ≠ (s.threads g).nChildren - 1 := by
          rintro rfl
          rw [eq, slot] at here
          exact dne here.symm
        rw [eq] at below ⊢
        omega
      · exact below
    refine ⟨(live _).mpr ⟨plive, pne⟩, pactive.imp_left (withoutChild_active g _).mpr, i, within, ?_⟩
    rw [ok.child_withoutChild glive array plive within]
    exact here

theorem Inv.withoutChild_array (glive : Live init s g)
    (last : s.lastChild g = .ok c) {q : Nat} (hq : Live init s q) : ArrayOk (withoutChild s c g) q := by
  obtain ⟨some, array, slot⟩ := lastChild_eq_ok.mp last
  have before := ok.arrays q hq
  have number := @withoutChild_field s c _ Holdings.number (fun _ _ => rfl) g q
  have children := @withoutChild_field s c _ Holdings.children (fun _ _ => rfl) g q
  have size := @withoutChild_field s c _ Holdings.maxChildren (fun _ _ => rfl) g q
  by_cases eq : q = g
  · subst eq
    have count : ((withoutChild s c q).threads q).nChildren = (s.threads q).nChildren - 1 := by
      rw [withoutChild_nChildren, if_pos rfl]
    have words : ∀ i, (withoutChild s c q).words (s.threads q).children i =
        if i = (s.threads q).nChildren - 1 then 0 else s.words (s.threads q).children i := fun i =>
      store_words_self ..
    constructor
    · rw [children, number]
      exact before.array
    · rw [children]
      exact fun null => absurd null array
    · have := before.room
      omega
    · rw [size]
      exact before.large
    · rw [children, number, count, size]
      intro _ full
      have slots := before.slots array full
      constructor
      · intro i above below
        rw [words]
        split
        · exact .inl rfl
        · exact slots.held i (by omega) below
      · intro i j hi below hj below'
        rw [words, words]
        split_ifs with ilast jlast jlast
        · exact fun nonzero => absurd rfl nonzero
        · exact fun nonzero => absurd rfl nonzero
        · exact fun nonzero zero => absurd zero nonzero
        · exact slots.once i j (by omega) below (by omega) below'
    · intro i below
      rw [ok.child_withoutChild glive array hq below, number]
      exact before.children i (by omega)
  · apply before.congr number children
    · rw [withoutChild_nChildren, if_neg eq]
    · exact size
    · exact fun _ => ok.words_withoutChild glive array hq eq
    · exact id
    · exact fun _ => id
    · exact fun _ _ _ => id

/-- `process_free` of a process without children that gives back blocks of its own only. -/
theorem Inv.processFree (queued : c ∈ s.taskQueue)
    (childless : (s.threads c).nChildren = 0) (last : s.lastChild (s.threads c).parent = .ok c)
    (own : ∀ a ∈ freedBlocks s c, a ≠ 0 → ∃ b ∈ s.held, b.addr = a ∧ b.label.owner = (s.threads c).number)
    (done : s.processFree c = .ok s') :
    Inv init .idle s' ∧ s'.taskQueue = s.taskQueue.erase c ∧
      (∀ b ∈ s.held, b.label.owner ≠ (s.threads c).number → b ∈ s'.held) ∧
      (∀ b ∈ s.held, b.label.use = .argv → s'.words b.addr = s.words b.addr) ∧
      ∀ {α : Type} (g : Holdings → α), (∀ t n, g { t with nChildren := n } = g t) →
        ∀ q, g (s'.threads q) = g (s.threads q) := by
  obtain ⟨array, rfl⟩ := processFree_eq done (ok.nonzero (.inr queued))
  have glive := (ok.tree.parent c queued).1
  have live := ok.live_withoutChild queued (s.threads c).parent
  have without : Inv init .idle (withoutChild s c (s.threads c).parent) :=
    ⟨ok.withoutChild_tree queued childless rfl last, ok.pool.unreserve c, ok.owners,
      fun q hq => ok.withoutChild_array glive last ((live q).mp hq).1⟩
  -- a block at an address that is given back belongs to `c`
  have mine : ∀ b ∈ s.held, b.addr ∈ freedBlocks s c → b.label.owner = (s.threads c).number := by
    intro b mem among
    obtain ⟨b', mem', same, owner⟩ := own _ among (ok.pool.nonzero b mem)
    rw [ok.pool.unique mem mem' same.symm]
    exact owner
  have others : ∀ q, Live init (withoutChild s c (s.threads c).parent) q → ∀ a use,
      Holds s (s.threads q).number a use → a ∉ freedBlocks s c := by
    intro q hq a use held among
    obtain ⟨hq, ne⟩ := (live q).mp hq
    exact ne (ok.tree.distinct q c hq (.inr queued) (mine _ held among))
  have number := @withoutChild_field s c _ Holdings.number (fun _ _ => rfl) (s.threads c).parent
  have children := @withoutChild_field s c _ Holdings.children (fun _ _ => rfl) (s.threads c).parent
  have released := without.releaseAll (l := freedBlocks s c) (fun q hq some => by
      rw [children] at some ⊢
      exact others q hq _ _ ((ok.arrays q ((live q).mp hq).1).array some))
    (fun q hq a among held => others q hq a _ (number q ▸ held) among)
  refine ⟨(released.setSize _).inv, rfl, ?_, ?_, ?_⟩
  · intro b mem owner
    exact Pool.mem_releaseAll.mpr ⟨mem, fun among => absurd (mine b mem among) owner⟩
  · intro b mem use
    apply store_words_of_ne
    intro at_array
    rw [ok.array_use glive mem at_array] at use
    cases use
  · exact fun g stable q => withoutChild_field g stable _ q

end

end

end Ownership

end Illinix.Verified.Process
