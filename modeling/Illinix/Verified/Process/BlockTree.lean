import Illinix.Verified.Process.Blocks

/-! # The tree of processes in memory

The invariant that ties the children arrays to the blocks and to the parent pointers, and one lemma for
each change that the kernel makes: allocations, new slots, an array that is enlarged, a child that is
added, moved or removed. -/

namespace Illinix.Verified.Process

open Kernel Lib Function List

namespace Ownership

variable {init : Nat} {phase : Phase} {s s' s'' : Ownership} {a array n owner q t task : Nat}

/-- `init` and the processes in `task_queue`. -/
def Live (init : Nat) (s : Ownership) (q : Nat) : Prop := q = init ∨ q ∈ s.taskQueue

/-- What the kernel is doing with the tree: nothing, moving the children of `p`, or creating `c`. -/
inductive Phase where
  | idle
  | leaving (p : Nat)
  | creating (c : Nat)

/-- A process that has not exited, and is not about to: `place_children` works for it. -/
def Active (phase : Phase) (s : Ownership) (q : Nat) : Prop :=
  (s.threads q).state ≠ .exited ∧ phase ≠ .leaving q

/-- The children array: the children first, which are none of the blocks of the process, then the
    placeholders, unless the array has been enlarged. -/
structure ArrayOk (s : Ownership) (q : Nat) : Prop where
  array : (s.threads q).children ≠ 0 → Holds s (s.threads q).number (s.threads q).children .children
  empty : (s.threads q).children = 0 → (s.threads q).nChildren = 0
  room : (s.threads q).nChildren ≤ (s.threads q).maxChildren
  large : maxChildren ≤ (s.threads q).maxChildren
  slots : (s.threads q).children ≠ 0 → (s.threads q).maxChildren = maxChildren →
    Slots s (s.threads q).number (s.threads q).children (s.threads q).nChildren maxChildren .placeholder
  children : ∀ i < (s.threads q).nChildren,
    child s q i ≠ 0 ∧ ∀ use, ¬Holds s (s.threads q).number (child s q i) use

/-- The children arrays of active processes and the parent pointers agree. -/
structure TreeOk (init : Nat) (phase : Phase) (s : Ownership) : Prop where
  nodup : s.taskQueue.Nodup
  root : init ∉ s.taskQueue
  rootActive : Active phase s init
  stack : ∀ q, Live init s q → q ∈ s.reserved
  number : ∀ q, Live init s q → (s.threads q).number < s.begun
  distinct : ∀ q r, Live init s q → Live init s r → (s.threads q).number = (s.threads r).number → q = r
  slot : ∀ q, Live init s q → Active phase s q → ∀ i < (s.threads q).nChildren,
    child s q i ∈ s.reserved ∧ (s.threads (child s q i)).parent = q
  queued : ∀ q, Live init s q → Active phase s q → ∀ i < (s.threads q).nChildren,
    child s q i ∈ s.taskQueue ∨ phase = .creating (child s q i)
  once : ∀ q, Live init s q → Active phase s q → ∀ i < (s.threads q).nChildren,
    ∀ j < (s.threads q).nChildren, child s q i = child s q j → i = j
  parent : ∀ d ∈ s.taskQueue, Live init s (s.threads d).parent ∧
    (Active phase s (s.threads d).parent ∨ phase = .leaving (s.threads d).parent) ∧
    ∃ i < (s.threads (s.threads d).parent).nChildren, child s (s.threads d).parent i = d

structure Inv (init : Nat) (phase : Phase) (s : Ownership) : Prop where
  tree : TreeOk init phase s
  pool : s.toPool.Ok
  owners : ∀ b ∈ s.held, b.label.owner < s.begun
  arrays : ∀ q, Live init s q → ArrayOk s q

/-! ## Changes outside of the tree -/

/-- `s'` has the processes of `s`, with the same children. -/
structure Frame (init : Nat) (s s' : Ownership) : Prop where
  queue : s'.taskQueue = s.taskQueue
  begun : s.begun ≤ s'.begun
  reserved : ∀ q ∈ s.reserved, q ∈ s'.reserved ∧ (s'.threads q).parent = (s.threads q).parent
  thread : ∀ q, Live init s q → (s'.threads q).number = (s.threads q).number ∧
    (s'.threads q).state = (s.threads q).state ∧ (s'.threads q).nChildren = (s.threads q).nChildren
  slots : ∀ q, Live init s q → ∀ i < (s.threads q).nChildren, child s' q i = child s q i

theorem Frame.live (frame : Frame init s s') (q : Nat) : Live init s' q ↔ Live init s q := by
  unfold Live
  rw [frame.queue]

theorem Frame.active (frame : Frame init s s') (live : Live init s q) :
    Active phase s' q ↔ Active phase s q := by
  unfold Active
  rw [(frame.thread q live).2.1]

theorem Frame.refl (s : Ownership) : Frame init s s :=
  ⟨rfl, Nat.le_refl _, fun _ mem => ⟨mem, rfl⟩, fun _ _ => ⟨rfl, rfl, rfl⟩, fun _ _ _ _ => rfl⟩

theorem Frame.trans (first : Frame init s s') (second : Frame init s' s'') : Frame init s s'' := by
  constructor
  · exact second.queue.trans first.queue
  · exact Nat.le_trans first.begun second.begun
  · intro q mem
    obtain ⟨mem, parent⟩ := first.reserved q mem
    obtain ⟨mem', parent'⟩ := second.reserved q mem
    exact ⟨mem', parent'.trans parent⟩
  · intro q live
    obtain ⟨number, state, count⟩ := first.thread q live
    obtain ⟨number', state', count'⟩ := second.thread q ((first.live q).mpr live)
    exact ⟨number'.trans number, state'.trans state, count'.trans count⟩
  · intro q live i below
    have below' : i < (s'.threads q).nChildren := by rwa [(first.thread q live).2.2]
    rw [second.slots q ((first.live q).mpr live) i below', first.slots q live i below]

theorem TreeOk.frame (ok : TreeOk init phase s) (frame : Frame init s s') :
    TreeOk init phase s' := by
  constructor
  · rw [frame.queue]
    exact ok.nodup
  · rw [frame.queue]
    exact ok.root
  · exact (frame.active (.inl rfl)).mpr ok.rootActive
  · intro q live
    exact (frame.reserved q (ok.stack q ((frame.live q).mp live))).1
  · intro q live
    have live := (frame.live q).mp live
    rw [(frame.thread q live).1]
    exact Nat.lt_of_lt_of_le (ok.number q live) frame.begun
  · intro q r hq hr same
    have hq := (frame.live q).mp hq
    have hr := (frame.live r).mp hr
    rw [(frame.thread q hq).1, (frame.thread r hr).1] at same
    exact ok.distinct q r hq hr same
  · intro q live active i below
    have live := (frame.live q).mp live
    rw [(frame.thread q live).2.2] at below
    obtain ⟨reserved, parent⟩ := ok.slot q live ((frame.active live).mp active) i below
    rw [frame.slots q live i below]
    exact ⟨(frame.reserved _ reserved).1, (frame.reserved _ reserved).2.trans parent⟩
  · intro q live active i below
    have live := (frame.live q).mp live
    rw [(frame.thread q live).2.2] at below
    rw [frame.slots q live i below, frame.queue]
    exact ok.queued q live ((frame.active live).mp active) i below
  · intro q live active i hi j hj same
    have live := (frame.live q).mp live
    rw [(frame.thread q live).2.2] at hi hj
    rw [frame.slots q live i hi, frame.slots q live j hj] at same
    exact ok.once q live ((frame.active live).mp active) i hi j hj same
  · intro d queued
    rw [frame.queue] at queued
    obtain ⟨live, active, i, below, same⟩ := ok.parent d queued
    rw [(frame.reserved d (ok.stack d (.inr queued))).2]
    refine ⟨(frame.live _).mpr live, ?_, i, ?_, ?_⟩
    · rwa [frame.active live]
    · rwa [(frame.thread _ live).2.2]
    · rwa [frame.slots _ live i below]

theorem ArrayOk.congr (ok : ArrayOk s q) (number : (s'.threads q).number = (s.threads q).number)
    (array : (s'.threads q).children = (s.threads q).children)
    (count : (s'.threads q).nChildren = (s.threads q).nChildren)
    (size : (s'.threads q).maxChildren = (s.threads q).maxChildren)
    (words : (s.threads q).children ≠ 0 → s'.words (s.threads q).children = s.words (s.threads q).children)
    (block : Holds s (s.threads q).number (s.threads q).children .children →
      Holds s' (s.threads q).number (s.threads q).children .children)
    (held : ∀ a, Holds s (s.threads q).number a .placeholder → Holds s' (s.threads q).number a .placeholder)
    (only : ∀ i < (s.threads q).nChildren, ∀ use,
      Holds s' (s.threads q).number (child s q i) use → Holds s (s.threads q).number (child s q i) use) :
    ArrayOk s' q := by
  constructor
  · rw [array, number]
    exact fun nonzero => block (ok.array nonzero)
  · rw [array, count]
    exact ok.empty
  · rw [count, size]
    exact ok.room
  · rw [size]
    exact ok.large
  · rw [array, number, count, size]
    exact fun nonzero full => (ok.slots nonzero full).mono (words nonzero) held
  · intro i below
    rw [count] at below
    have nonzero : (s.threads q).children ≠ 0 := by
      intro zero
      rw [ok.empty zero] at below
      omega
    have same : child s' q i = child s q i := by
      unfold child
      rw [array, words nonzero]
    rw [same, number]
    exact ⟨(ok.children i below).1, fun use held => (ok.children i below).2 use (only i below use held)⟩

/-! ## What stays for processes that are complete -/

/-- The pointers of the processes of `s`, their blocks apart from children arrays and areas, and the
    words in their argument vectors are the same in `s'`. -/
structure Keeps (init : Nat) (s s' : Ownership) : Prop where
  queue : ∀ q ∈ s.taskQueue, q ∈ s'.taskQueue
  thread : ∀ q, Live init s q → (s'.threads q).number = (s.threads q).number ∧
    (s'.threads q).context = (s.threads q).context ∧ (s'.threads q).fds = (s.threads q).fds ∧
    (s'.threads q).argv = (s.threads q).argv
  held : ∀ b ∈ s.held, b.label.use ≠ .children → b.label.use ≠ .area → b ∈ s'.held
  words : ∀ b ∈ s.held, b.label.use = .argv → s'.words b.addr = s.words b.addr

theorem Keeps.refl (s : Ownership) : Keeps init s s :=
  ⟨fun _ mem => mem, fun _ _ => ⟨rfl, rfl, rfl, rfl⟩, fun _ mem _ _ => mem, fun _ _ _ => rfl⟩

theorem Keeps.live (keeps : Keeps init s s') (live : Live init s q) : Live init s' q :=
  live.imp_right (keeps.queue q)

theorem Keeps.trans (first : Keeps init s s') (second : Keeps init s' s'') : Keeps init s s'' := by
  constructor
  · exact fun q mem => second.queue q (first.queue q mem)
  · intro q live
    obtain ⟨number, context, fds, argv⟩ := first.thread q live
    obtain ⟨number', context', fds', argv'⟩ := second.thread q (first.live live)
    exact ⟨number'.trans number, context'.trans context, fds'.trans fds, argv'.trans argv⟩
  · exact fun b mem array area => second.held b (first.held b mem array area) array area
  · intro b mem use
    rw [second.words b (first.held b mem (by simp [use]) (by simp [use])) use, first.words b mem use]

theorem Keeps.holds (keeps : Keeps init s s') {use : BlockUse} (held : Holds s n a use)
    (array : use ≠ .children) (area : use ≠ .area) : Holds s' n a use :=
  keeps.held _ held array area

/-- A change that keeps the invariant and what belongs to the processes of `s`. -/
structure Grown (init : Nat) (phase : Phase) (s s' : Ownership) : Prop where
  inv : Inv init phase s'
  keeps : Keeps init s s'

/-- A change that keeps the tree as it is, too. -/
structure Stays (init : Nat) (phase : Phase) (s s' : Ownership) : Prop
    extends Grown init phase s s' where
  frame : Frame init s s'

theorem Grown.trans (first : Grown init phase s s') (second : Grown init phase s' s'') :
    Grown init phase s s'' :=
  ⟨second.inv, first.keeps.trans second.keeps⟩

theorem Keeps.grown (first : Keeps init s s') (second : Grown init phase s' s'') : Grown init phase s s'' :=
  ⟨second.inv, first.trans second.keeps⟩

theorem Stays.refl (ok : Inv init phase s) : Stays init phase s s := ⟨⟨ok, .refl s⟩, .refl s⟩

theorem Stays.trans (first : Stays init phase s s') (second : Stays init phase s' s'') :
    Stays init phase s s'' :=
  ⟨first.toGrown.trans second.toGrown, first.frame.trans second.frame⟩

/-! ## Allocations -/

section

variable (ok : Inv init phase s)

include ok

/-- The blocks and the words in children arrays and argument vectors stay, and so do the processes. -/
theorem Inv.unchanged (queue : s'.taskQueue = s.taskQueue) (held : s'.held = s.held)
    (begun : s.begun ≤ s'.begun) (pool : s'.toPool.Ok)
    (reserved : ∀ q ∈ s.reserved, q ∈ s'.reserved ∧ (s'.threads q).parent = (s.threads q).parent)
    (thread : ∀ q, Live init s q → s'.threads q = s.threads q)
    (words : ∀ q, Live init s q → s'.words (s.threads q).children = s.words (s.threads q).children)
    (args : ∀ b ∈ s.held, b.label.use = .argv → s'.words b.addr = s.words b.addr) : Stays init phase s s' := by
  have frame : Frame init s s' := by
    refine ⟨queue, begun, reserved, fun q live => ?_, fun q live i _ => ?_⟩
    · rw [thread q live]
      exact ⟨rfl, rfl, rfl⟩
    · unfold child
      rw [thread q live, words q live]
  refine ⟨⟨⟨ok.tree.frame frame, pool, ?_, fun q live => ?_⟩, ?_, ?_, ?_, args⟩, frame⟩
  · rw [held]
    exact fun b mem => Nat.lt_of_lt_of_le (ok.owners b mem) begun
  · have live := (frame.live q).mp live
    apply (ok.arrays q live).congr <;> try rw [thread q live]
    · exact fun _ => words q live
    all_goals
      unfold Holds
      rw [held]
    · exact id
    · exact fun _ => id
    · exact fun _ _ _ => id
  · rw [queue]
    exact fun _ => id
  · intro q live
    rw [thread q live]
    exact ⟨rfl, rfl, rfl, rfl⟩
  · rw [held]
    exact fun _ mem _ _ => mem

theorem Inv.nonzero (live : Live init s q) : q ≠ 0 :=
  fun zero => ok.pool.reservedNonzero (zero ▸ ok.tree.stack q live)

/-- No block lies at the children array of a process but that array. -/
theorem Inv.array_use (live : Live init s q) {b : PoolBlock BlockLabel}
    (mem : b ∈ s.held) (at_array : b.addr = (s.threads q).children) :
    b.label = ⟨(s.threads q).number, .children⟩ := by
  have nonzero : (s.threads q).children ≠ 0 := at_array ▸ ok.pool.nonzero b mem
  rw [ok.pool.unique mem ((ok.arrays q live).array nonzero) at_array]

theorem Inv.not_array (live : Live init s q) (nonzero : a ≠ 0)
    (free : ¬s.InUse a) : (s.threads q).children ≠ a := by
  intro same
  rw [← same] at nonzero free
  exact free ((ok.arrays q live).array nonzero).inUse

theorem Inv.kmalloc (use : BlockUse) (known : owner < s.begun)
    (active : ∀ q, Live init s q → (s.threads q).number = owner → Active phase s q) :
    Stays init phase s (s.kmalloc owner use).2 := by
  have more : ∀ b ∈ s.held, b ∈ (s.kmalloc owner use).2.held := fun b mem => mem_kmalloc.mpr (.inl mem)
  have frame : Frame init s (s.kmalloc owner use).2 := by
    refine ⟨rfl, Nat.le_refl _, ?_, fun _ _ => ⟨rfl, rfl, rfl⟩, fun _ _ _ _ => rfl⟩
    exact fun q mem => ⟨by rwa [reserved_kmalloc], rfl⟩
  refine ⟨⟨?_, ?_⟩, frame⟩
  · constructor
    · exact ok.tree.frame frame
    · exact ok.pool.alloc _
    · intro b mem
      cases mem_kmalloc.mp mem with
      | inl mem => exact ok.owners b mem
      | inr new => exact new.2 ▸ known
    · intro q live
      refine (ok.arrays q live).congr rfl rfl rfl rfl (fun _ => rfl) (more _) (fun a => more _) ?_
      intro i below use' held
      cases mem_kmalloc.mp held with
      | inl held => exact held
      | inr new =>
        -- a child of an active process lies in pages that are in use
        obtain ⟨nonzero, same⟩ := new
        injection same with addr label
        injection label with owned
        have reserved := (ok.tree.slot q live (active q live owned) i below).1
        rw [addr] at reserved
        exact absurd (.inr reserved) (not_inUse_kmalloc nonzero)
  · exact ⟨fun _ mem => mem, fun _ _ => ⟨rfl, rfl, rfl, rfl⟩, fun b mem _ _ => more b mem, fun _ _ _ => rfl⟩

end

theorem frame_setWords (f : Nat → Nat) (apart : ∀ q, Live init s q → (s.threads q).children ≠ array) :
    Frame init s { s with words := update s.words array f } := by
  refine ⟨rfl, Nat.le_refl _, fun _ mem => ⟨mem, rfl⟩, fun _ _ => ⟨rfl, rfl, rfl⟩, ?_⟩
  intro q live i _
  unfold child
  dsimp only
  rw [update_of_ne (apart q live)]

theorem Inv.setWords (ok : Inv init phase s) (f : Nat → Nat)
    (apart : ∀ q, Live init s q → (s.threads q).children ≠ array) :
    Inv init phase { s with words := update s.words array f } := by
  constructor
  · exact ok.tree.frame (frame_setWords f apart)
  · exact ok.pool
  · exact ok.owners
  · intro q live
    exact (ok.arrays q live).congr rfl rfl rfl rfl (fun _ => update_of_ne (apart q live) ..) id
      (fun _ => id) (fun _ _ _ => id)

theorem Inv.modify (ok : Inv init phase s) {f : Holdings → Holdings}
    (outside : ¬Live init s t) (parent : (f (s.threads t)).parent = (s.threads t).parent) :
    Stays init phase s (s.modify t f) := by
  have same : ∀ q, Live init s q → (s.modify t f).threads q = s.threads q := by
    intro q live
    apply modify_threads_of_ne
    intro eq
    exact outside (eq ▸ live)
  refine ok.unchanged rfl rfl (Nat.le_refl _) ok.pool ?_ same (fun _ _ => rfl) fun _ _ _ => rfl
  intro q mem
  by_cases eq : q = t
  · rw [eq, modify_threads_self, parent]
    exact ⟨eq ▸ mem, rfl⟩
  · rw [modify_threads_of_ne _ eq]
    exact ⟨mem, rfl⟩

theorem Inv.fillArray (ok : Inv init phase s) (use : BlockUse) (n : Nat) (known : owner < s.begun)
    (active : ∀ q, Live init s q → (s.threads q).number = owner → Active phase s q)
    (apart : ∀ q, Live init s q → (s.threads q).children ≠ array) :
    Inv init phase (s.fillArray owner use array n) := by
  induction n with
  | zero => exact ok
  | succ n ih =>
    have filled := filled_fillArray s owner use array n
    rw [fillArray_succ]
    generalize s.fillArray owner use array n = t at ih filled ⊢
    have live : ∀ q, Live init t q → Live init s q := by
      unfold Live
      rw [filled.taskQueue]
      exact fun _ => id
    apply Inv.setWords
    · apply (ih.kmalloc use (filled.begun ▸ known) _).inv
      intro q hq number
      rw [filled.threads] at number
      unfold Active
      rw [filled.threads]
      exact active q (live q hq) number
    · intro q hq
      rw [threads_kmalloc, filled.threads]
      exact apart q (live q hq)

section

variable (ok : Inv init phase s) (known : owner < s.begun)
  (active : ∀ q, Live init s q → (s.threads q).number = owner → Active phase s q)

include ok known active

theorem Inv.arrayCreate {use slotUse : BlockUse}
    (done : s.arrayCreate owner use slotUse n = .ok (array, s')) : Stays init phase s s' := by
  obtain ⟨nonzero, free, -, -, filled⟩ := arrayCreate_inv done
  refine ⟨⟨?_, ?_⟩, ?_⟩
  · unfold Ownership.arrayCreate at done
    simp only at done
    split at done
    · cases done
    · cases done
      exact (ok.kmalloc use known active).inv.fillArray slotUse n known active
        fun q live => ok.not_array live nonzero free
  · constructor
    · rw [filled.taskQueue]
      exact fun _ => id
    · rw [filled.threads]
      exact fun _ _ => ⟨rfl, rfl, rfl, rfl⟩
    · exact fun b mem _ _ => filled.held b mem
    · intro b mem _
      apply filled.words
      rintro rfl
      exact free (Pool.inUse_of_mem mem)
  · refine ⟨filled.taskQueue, Nat.le_of_eq filled.begun.symm, ?_, ?_, ?_⟩
    · rw [filled.reserved, filled.threads]
      exact fun _ mem => ⟨mem, rfl⟩
    · rw [filled.threads]
      exact fun _ _ => ⟨rfl, rfl, rfl⟩
    · intro q live i _
      unfold child
      rw [filled.threads, filled.words _ (ok.not_array live nonzero free)]

theorem Inv.areasCreate {areas : List Nat}
    (done : s.areasCreate owner n = .ok (areas, s')) : Stays init phase s s' := by
  induction n generalizing s areas with
  | zero =>
    cases done
    exact .refl ok
  | succ n ih =>
    rw [Ownership.areasCreate] at done
    simp only at done
    split at done
    · cases done
    · obtain ⟨⟨rest, t⟩, later, done⟩ := bind_eq_ok.mp done
      cases done
      have first := ok.kmalloc .area known active
      exact first.trans (ih first.inv known active later)

end

theorem frame_releaseAll (s : Ownership) (l : List Nat) :
    Frame init s { s with toPool := s.toPool.releaseAll l } := by
  refine ⟨rfl, Nat.le_refl _, ?_, fun _ _ => ⟨rfl, rfl, rfl⟩, fun _ _ _ _ => rfl⟩
  exact fun q mem => ⟨by rwa [Pool.reserved_releaseAll], rfl⟩

/-- Giving back blocks that no children array of a process needs. -/
theorem Inv.releaseAll (ok : Inv init phase s) {l : List Nat}
    (arrays : ∀ q, Live init s q → (s.threads q).children ≠ 0 → (s.threads q).children ∉ l)
    (placeholders : ∀ q, Live init s q → ∀ a ∈ l, ¬Holds s (s.threads q).number a .placeholder) :
    Inv init phase { s with toPool := s.toPool.releaseAll l } := by
  constructor
  · exact ok.tree.frame (frame_releaseAll s l)
  · exact ok.pool.releaseAll l
  · exact fun b mem => ok.owners b (Pool.mem_releaseAll.mp mem).1
  · intro q live
    refine (ok.arrays q live).congr rfl rfl rfl rfl (fun _ => rfl) ?_ ?_ ?_
    · exact fun held => Pool.mem_releaseAll.mpr
        ⟨held, fun mem => absurd mem (arrays q live (ok.pool.nonzero _ held))⟩
    · exact fun a held => Pool.mem_releaseAll.mpr ⟨held, fun mem => absurd held (placeholders q live a mem)⟩
    · exact fun i _ use held => (Pool.mem_releaseAll.mp held).1

theorem Inv.begin (ok : Inv init phase s) : Stays init phase s s.begin.2 :=
  ok.unchanged rfl rfl (Nat.le_succ _) ok.pool (fun _ mem => ⟨mem, rfl⟩) (fun _ _ => rfl) (fun _ _ => rfl)
    fun _ _ _ => rfl

theorem allocKstack_inv {pages : StackPages} (done : s.allocKstack pages = .ok s') :
    pages.addr ≠ 0 ∧ ¬s.InUse pages.addr ∧ s' = { s with
      toPool := s.toPool.reserve pages.addr
      threads := update s.threads pages.addr pages.stale } := by
  unfold Ownership.allocKstack at done
  split at done
  · cases done
  · next free =>
    cases done
    rw [not_or] at free
    exact ⟨free.1, free.2, rfl⟩

theorem Inv.allocKstack (ok : Inv init phase s) {pages : StackPages} (f : Holdings → Holdings)
    (done : s.allocKstack pages = .ok s') : Stays init phase s (s'.modify pages.addr f) := by
  obtain ⟨nonzero, free, rfl⟩ := allocKstack_inv done
  have other : ∀ q ∈ s.reserved, q ≠ pages.addr := by
    rintro q mem rfl
    exact free (.inr mem)
  have same : ∀ q ∈ s.reserved, update (update s.threads pages.addr pages.stale)
      pages.addr (f (update s.threads pages.addr pages.stale pages.addr)) q = s.threads q := by
    intro q mem
    rw [update_of_ne (other q mem), update_of_ne (other q mem)]
  refine ok.unchanged rfl rfl (Nat.le_refl _) (ok.pool.reserve nonzero free) ?_ ?_ (fun _ _ => rfl)
    fun _ _ _ => rfl
  · exact fun q mem => ⟨mem_cons_of_mem _ mem, congrArg Holdings.parent (same q mem)⟩
  · exact fun q live => same q (ok.tree.stack q live)

/-! ## A new children array -/

/-- `s'` differs from `s` in blocks, words and the children array of `task`. -/
structure Resized (s s' : Ownership) (task : Nat) : Prop where
  threads : ∃ children maxChildren,
    s'.threads = Function.update s.threads task { s.threads task with children, maxChildren }
  begun : s'.begun = s.begun
  reserved : s'.reserved = s.reserved

theorem Resized.refl (s : Ownership) (task : Nat) : Resized s s task :=
  ⟨⟨_, _, (update_eq_self task s.threads).symm⟩, rfl, rfl⟩

theorem Resized.trans (first : Resized s s' task) (second : Resized s' s'' task) : Resized s s'' task := by
  obtain ⟨⟨a, m, threads⟩, begun, reserved⟩ := first
  obtain ⟨⟨a', m', threads'⟩, begun', reserved'⟩ := second
  refine ⟨⟨a', m', ?_⟩, begun'.trans begun, reserved'.trans reserved⟩
  rw [threads', threads, update_idem, update_self]

section

variable (ok : Inv init phase s) (live : Live init s task)

include ok live

/-- Any array that begins with the same children. -/
theorem Inv.resize {m : Nat} (nonzero : a ≠ 0)
    (block : Holds s (s.threads task).number a .children) (room : (s.threads task).nChildren ≤ m)
    (large : maxChildren ≤ m)
    (slots : m = maxChildren →
      Slots s (s.threads task).number a (s.threads task).nChildren maxChildren .placeholder)
    (same : ∀ i < (s.threads task).nChildren, s.words a i = child s task i) :
    Stays init phase s (s.modify task fun t => { t with children := a, maxChildren := m }) := by
  have children : ∀ q, Live init s q → ∀ i < (s.threads q).nChildren,
      child (s.modify task fun t => { t with children := a, maxChildren := m }) q i = child s q i := by
    intro q _ i below
    unfold child
    by_cases eq : q = task
    · subst eq
      rw [modify_threads_self]
      exact same i below
    · rw [modify_threads_of_ne _ eq]
      rfl
  have frame : Frame init s (s.modify task fun t => { t with children := a, maxChildren := m }) := by
    refine ⟨rfl, Nat.le_refl _, fun q mem => ⟨mem, modify_field Holdings.parent rfl q⟩, ?_, children⟩
    exact fun q _ => ⟨modify_field Holdings.number rfl q, modify_field Holdings.state rfl q,
      modify_field Holdings.nChildren rfl q⟩
  refine ⟨⟨?_, ?_⟩, frame⟩
  · constructor
    · exact ok.tree.frame frame
    · exact ok.pool
    · exact ok.owners
    · intro q hq
      by_cases eq : q = task
      · subst eq
        constructor <;> try rw [modify_threads_self]
        · exact fun _ => block
        · exact fun zero => absurd zero nonzero
        · exact room
        · exact large
        · exact fun _ full => (slots full).mono rfl fun _ => id
        · intro i below
          rw [children q hq i below]
          exact (ok.arrays q hq).children i below
      · apply (ok.arrays q hq).congr <;> try rw [modify_threads_of_ne _ eq]
        · exact fun _ => rfl
        · exact id
        · exact fun _ => id
        · exact fun _ _ _ => id
  · refine ⟨fun _ mem => mem, ?_, fun _ mem _ _ => mem, fun _ _ _ => rfl⟩
    exact fun q _ => ⟨modify_field Holdings.number rfl q, modify_field Holdings.context rfl q,
      modify_field Holdings.fds rfl q, modify_field Holdings.argv rfl q⟩

theorem Inv.active_number (active : Active phase s task) (q : Nat) (hq : Live init s q)
    (same : (s.threads q).number = (s.threads task).number) : Active phase s q := by
  rw [ok.tree.distinct q task hq live same]
  exact active

theorem Inv.childrenInit (active : Active phase s task) (done : s.childrenInit task = .ok s') :
    Stays init phase s s' ∧ Resized s s' task ∧ (s'.threads task).children ≠ 0 := by
  unfold Ownership.childrenInit at done
  split at done
  · next none =>
    obtain ⟨⟨a, t⟩, create, done⟩ := bind_eq_ok.mp done
    cases done
    have known := ok.tree.number task live
    obtain ⟨nonzero, -, block, slots, filled⟩ := arrayCreate_inv create
    have grown := ok.arrayCreate known (ok.active_number live active) create
    have zero := (ok.arrays task live).empty none
    refine ⟨grown.trans ?_, ?_, ?_⟩
    · have thread : t.threads task = s.threads task := by rw [filled.threads]
      have resized := grown.inv.resize (m := (s.threads task).maxChildren) (grown.keeps.live live) nonzero
        (thread ▸ block) (thread ▸ (ok.arrays task live).room) (ok.arrays task live).large
        (fun _ => by rw [thread, zero]; exact slots) (by rw [thread, zero]; simp)
      rw [← thread] at resized
      exact resized
    · refine ⟨⟨a, (s.threads task).maxChildren, ?_⟩, filled.begun, filled.reserved⟩
      unfold Ownership.modify
      rw [filled.threads]
    · rw [modify_threads_self]
      exact nonzero
  · next some =>
    cases done
    exact ⟨.refl ok, .refl _ _, some⟩

theorem Inv.release_array {old : Nat}
    (block : Holds s (s.threads task).number old .children) (other : (s.threads task).children ≠ old) :
    Stays init phase s { s with toPool := s.toPool.releaseAll [old] } := by
  have only : ∀ b ∈ s.held, b.addr ∈ [old] → b.label = ⟨(s.threads task).number, .children⟩ := by
    intro b mem at_old
    rw [ok.pool.unique mem block (mem_singleton.mp at_old)]
  refine ⟨⟨?_, ?_⟩, frame_releaseAll _ _⟩
  · apply ok.releaseAll
    · intro q hq nonzero mem
      have label := only _ ((ok.arrays q hq).array nonzero) mem
      injection label with same
      rw [ok.tree.distinct q task hq live same] at mem
      exact other (mem_singleton.mp mem)
    · intro q hq a mem held
      have label := only _ held mem
      injection label with _ use
      cases use
  · refine ⟨fun _ mem => mem, fun _ _ => ⟨rfl, rfl, rfl, rfl⟩, ?_, fun _ _ _ => rfl⟩
    intro b mem array _
    refine Pool.mem_releaseAll.mpr ⟨mem, fun at_old => ?_⟩
    rw [only b mem at_old] at array
    exact absurd rfl array

theorem Inv.enlarge (nonzero : a ≠ 0) (block : Holds s (s.threads task).number a .children)
    (apart : ∀ q, Live init s q → (s.threads q).children ≠ a)
    (full : (s.threads task).nChildren = (s.threads task).maxChildren) :
    Stays init phase s (((s.copyWords a (s.threads task).children (s.threads task).maxChildren).kfree
        (s.threads task).children).modify task fun t =>
          { t with children := a, maxChildren := t.maxChildren * 2 }) := by
  have array := ok.arrays task live
  have large : 100 ≤ (s.threads task).maxChildren := array.large
  have old : (s.threads task).children ≠ 0 := fun none => by
    have := array.empty none
    omega
  have copied : Stays init phase s
      (s.copyWords a (s.threads task).children (s.threads task).maxChildren) := by
    refine ok.unchanged rfl rfl (Nat.le_refl _) ok.pool (fun _ mem => ⟨mem, rfl⟩) (fun _ _ => rfl)
      (fun q live => update_of_ne (apart q live) ..) fun b mem use => ?_
    apply update_of_ne
    intro at_array
    rw [ok.pool.unique mem block at_array] at use
    cases use
  have resized := copied.inv.resize (m := (s.threads task).maxChildren * 2) live nonzero block
    (show (s.threads task).nChildren ≤ _ by omega) (show 100 ≤ _ by omega)
    (fun twice => by unfold maxChildren at twice; omega)
    (fun i below => by
      have below : i < (s.threads task).maxChildren := full ▸ below
      unfold child Ownership.copyWords
      dsimp only
      rw [update_self, if_pos below, update_of_ne (apart task live)])
  have held : Holds s (s.threads task).number (s.threads task).children .children := array.array old
  refine copied.trans (resized.trans (resized.inv.release_array live ?_ ?_))
  · rw [modify_threads_self]
    exact held
  · rw [modify_threads_self]
    exact (apart task live).symm

theorem Inv.overflowChildren (active : Active phase s task) (done : s.overflowChildren task = .ok s') :
    Stays init phase s s' ∧ Resized s s' task ∧
      ((s.threads task).children ≠ 0 → (s'.threads task).children ≠ 0) ∧
      (s'.threads task).nChildren < (s'.threads task).maxChildren := by
  unfold Ownership.overflowChildren at done
  simp only at done
  have array := ok.arrays task live
  split at done
  · next full =>
    split at done
    · cases done
    · next nonzero =>
      cases done
      have grown := ok.kmalloc .children (ok.tree.number task live) (ok.active_number live active)
      have apart := fun q hq => ok.not_array (q := q) hq nonzero (not_inUse_kmalloc nonzero)
      refine ⟨grown.trans (grown.inv.enlarge live nonzero (holds_kmalloc nonzero) apart full), ?_, ?_, ?_⟩
      · exact ⟨⟨_, _, rfl⟩, rfl, (Pool.reserved_releaseAll _ [_]).trans (reserved_kmalloc _ _)⟩
      · rw [modify_threads_self]
        exact fun _ => nonzero
      · rw [modify_threads_self]
        have large : 100 ≤ (s.threads task).maxChildren := array.large
        show (s.threads task).nChildren < (s.threads task).maxChildren * 2
        omega
  · next room =>
    cases done
    exact ⟨.refl ok, .refl _ _, id, Nat.lt_of_le_of_ne array.room room⟩

end

/-! ## A new child -/

/-- `task->children[task->n_children++] = c`, with `c->parent = task`. -/
def withChild (s : Ownership) (task c : Nat) : Ownership :=
  ((s.store (s.threads task).children (s.threads task).nChildren c).modify task fun t =>
    { t with nChildren := t.nChildren + 1 }).modify c fun t => { t with parent := task }

section

variable {task c : Nat}

theorem withChild_field {α : Type} (g : Holdings → α)
    (stable : ∀ t n p, g { t with nChildren := n, parent := p } = g t) (q : Nat) :
    g ((withChild s task c).threads q) = g (s.threads q) := by
  unfold withChild
  rw [modify_field g (stable _ _ task), modify_field g (stable _ _ _)]
  rfl

theorem withChild_nChildren (q : Nat) : ((withChild s task c).threads q).nChildren =
      if q = task then (s.threads q).nChildren + 1 else (s.threads q).nChildren := by
  unfold withChild Ownership.modify Ownership.store
  simp only [update_apply]
  split_ifs <;> simp_all

theorem withChild_parent (q : Nat) :
    ((withChild s task c).threads q).parent = if q = c then task else (s.threads q).parent := by
  unfold withChild Ownership.modify Ownership.store
  simp only [update_apply]
  split_ifs <;> simp_all

theorem Inv.array_ne (ok : Inv init phase s) {q : Nat} (hq : Live init s q) (live : Live init s task)
    (array : (s.threads task).children ≠ 0) (ne : q ≠ task) :
    (s.threads q).children ≠ (s.threads task).children := by
  intro same
  have label := ok.array_use hq ((ok.arrays task live).array array) same.symm
  injection label with number
  exact ne (ok.tree.distinct q task hq live number.symm)

theorem Inv.adopt_child (ok : Inv init phase s) (live : Live init s task)
    (array : (s.threads task).children ≠ 0) {q : Nat} (hq : Live init s q) (i : Nat) :
    child (withChild s task c) q i =
      if q = task ∧ i = (s.threads task).nChildren then c else child s q i := by
  unfold child
  rw [withChild_field Holdings.children (fun _ _ _ => rfl)]
  show (s.store (s.threads task).children (s.threads task).nChildren c).words _ i = _
  by_cases eq : q = task
  · subst eq
    rw [store_words_self]
    simp
  · rw [store_words_of_ne _ _ (ok.array_ne hq live array eq)]
    simp [eq]

theorem withChild_active (q : Nat) : Active phase (withChild s task c) q ↔ Active phase s q := by
  unfold Active
  rw [withChild_field Holdings.state (fun _ _ _ => rfl)]

section

variable (ok : Inv init phase s) (live : Live init s task)

include ok live

theorem Inv.adopt_tree
    (active : Active phase s task) (array : (s.threads task).children ≠ 0) (reserved : c ∈ s.reserved)
    (queued : c ∈ s.taskQueue ∨ phase = .creating c)
    (apart : ∀ q, Live init s q → Active phase s q → ∀ i < (s.threads q).nChildren, child s q i ≠ c) :
    TreeOk init phase (withChild s task c) := by
  have number := @withChild_field s task c _ Holdings.number (fun _ _ _ => rfl)
  -- the slots of `s` keep their children; the only new one is behind them in the array of `task`
  have old : ∀ q, Live init s q → ∀ i < (s.threads q).nChildren,
      child (withChild s task c) q i = child s q i := by
    intro q hq i below
    rw [ok.adopt_child live array hq, if_neg]
    rintro ⟨rfl, rfl⟩
    omega
  have new : child (withChild s task c) task (s.threads task).nChildren = c := by
    rw [ok.adopt_child live array live, if_pos ⟨rfl, rfl⟩]
  have slot : ∀ q, ∀ i < ((withChild s task c).threads q).nChildren,
      i < (s.threads q).nChildren ∨ q = task ∧ i = (s.threads task).nChildren := by
    intro q i below
    rw [withChild_nChildren] at below
    split at below
    · next eq =>
      subst eq
      omega
    · exact .inl below
  have longer : ∀ q, (s.threads q).nChildren ≤ ((withChild s task c).threads q).nChildren := by
    intro q
    rw [withChild_nChildren]
    split <;> omega
  constructor
  · exact ok.tree.nodup
  · exact ok.tree.root
  · exact (withChild_active init).mpr ok.tree.rootActive
  · exact ok.tree.stack
  · intro q hq
    rw [number]
    exact ok.tree.number q hq
  · intro q r hq hr same
    rw [number, number] at same
    exact ok.tree.distinct q r hq hr same
  · intro q hq hactive i below
    have hactive := (withChild_active q).mp hactive
    rw [withChild_parent]
    cases slot q i below with
    | inl below =>
      obtain ⟨mem, parent⟩ := ok.tree.slot q hq hactive i below
      rw [old q hq i below, if_neg (apart q hq hactive i below)]
      exact ⟨mem, parent⟩
    | inr last =>
      obtain ⟨rfl, rfl⟩ := last
      rw [new, if_pos rfl]
      exact ⟨reserved, rfl⟩
  · intro q hq hactive i below
    cases slot q i below with
    | inl below =>
      rw [old q hq i below]
      exact ok.tree.queued q hq ((withChild_active q).mp hactive) i below
    | inr last =>
      obtain ⟨rfl, rfl⟩ := last
      rw [new]
      exact queued
  · intro q hq hactive i hi j hj same
    have before := (withChild_active q).mp hactive
    cases slot q i hi with
    | inl first =>
      cases slot q j hj with
      | inl second =>
        rw [old q hq i first, old q hq j second] at same
        exact ok.tree.once q hq before i first j second same
      | inr last =>
        obtain ⟨rfl, rfl⟩ := last
        rw [old q hq i first, new] at same
        exact absurd same (apart q hq before i first)
    | inr last =>
      obtain ⟨rfl, rfl⟩ := last
      cases slot q j hj with
      | inl second =>
        rw [old q hq j second, new] at same
        exact absurd same.symm (apart q hq before j second)
      | inr last => exact last.2.symm
  · intro d queued
    rw [withChild_parent]
    split
    · next eq =>
      refine ⟨live, .inl ((withChild_active task).mpr active), (s.threads task).nChildren, ?_, eq ▸ new⟩
      rw [withChild_nChildren, if_pos rfl]
      omega
    · obtain ⟨plive, pactive, i, below, same⟩ := ok.tree.parent d queued
      refine ⟨plive, pactive.imp_left (withChild_active _).mpr, i, Nat.lt_of_lt_of_le below (longer _), ?_⟩
      rw [old _ plive i below, same]

theorem Inv.adopt_array (array : (s.threads task).children ≠ 0)
    (room : (s.threads task).nChildren < (s.threads task).maxChildren) (reserved : c ∈ s.reserved)
    {q : Nat} (hq : Live init s q) : ArrayOk (withChild s task c) q := by
  have before := ok.arrays q hq
  have number := @withChild_field s task c _ Holdings.number (fun _ _ _ => rfl) q
  have children := @withChild_field s task c _ Holdings.children (fun _ _ _ => rfl) q
  have size := @withChild_field s task c _ Holdings.maxChildren (fun _ _ _ => rfl) q
  by_cases eq : q = task
  · subst eq
    have count : ((withChild s q c).threads q).nChildren = (s.threads q).nChildren + 1 := by
      rw [withChild_nChildren, if_pos rfl]
    have other : ∀ i, (s.threads q).nChildren + 1 ≤ i →
        (withChild s q c).words (s.threads q).children i = s.words (s.threads q).children i := by
      intro i above
      show (s.store (s.threads q).children (s.threads q).nChildren c).words _ i = _
      rw [store_words_self, if_neg (by omega)]
    constructor
    · rw [children, number]
      exact before.array
    · rw [children]
      exact fun none => absurd none array
    · rw [count, size]
      exact room
    · rw [size]
      exact before.large
    · rw [children, number, count, size]
      intro _ full
      have slots := before.slots array full
      constructor
      · intro i above below
        rw [other i above]
        exact slots.held i (by omega) below
      · intro i j hi below hj below'
        rw [other i hi, other j hj]
        exact slots.once i j (by omega) below (by omega) below'
    · intro i below
      rw [ok.adopt_child live array hq, number]
      split
      · exact ⟨fun zero => ok.pool.reservedNonzero (zero ▸ reserved),
          fun use held => ok.pool.apart _ held reserved⟩
      · next last =>
        exact before.children i (by omega)
  · apply before.congr number children
    · rw [withChild_nChildren, if_neg eq]
    · exact size
    · exact fun _ => store_words_of_ne _ _ (ok.array_ne hq live array eq)
    · exact id
    · exact fun _ => id
    · exact fun _ _ _ => id

theorem Inv.adopt (active : Active phase s task) (array : (s.threads task).children ≠ 0)
    (room : (s.threads task).nChildren < (s.threads task).maxChildren) (reserved : c ∈ s.reserved)
    (queued : c ∈ s.taskQueue ∨ phase = .creating c)
    (apart : ∀ q, Live init s q → Active phase s q → ∀ i < (s.threads q).nChildren, child s q i ≠ c) :
    Grown init phase s (withChild s task c) := by
  constructor
  · exact ⟨ok.adopt_tree live active array reserved queued apart, ok.pool, ok.owners,
      fun q hq => ok.adopt_array live array room reserved hq⟩
  · constructor
    · exact fun _ mem => mem
    · intro q _
      exact ⟨withChild_field Holdings.number (fun _ _ _ => rfl) q,
        withChild_field Holdings.context (fun _ _ _ => rfl) q, withChild_field Holdings.fds (fun _ _ _ => rfl) q,
        withChild_field Holdings.argv (fun _ _ _ => rfl) q⟩
    · exact fun _ mem _ _ => mem
    · intro b mem use
      apply store_words_of_ne
      intro at_array
      rw [ok.array_use live mem at_array] at use
      cases use

end

end

/-- Another phase, in which no process becomes active and none ceases to be but the one that leaves. -/
theorem Inv.rephase (ok : Inv init .idle s) (before : ∀ q, Active phase s q → Active .idle s q)
    (root : Active phase s init) (after : ∀ q, Active .idle s q → Active phase s q ∨ phase = .leaving q) :
    Inv init phase s := by
  refine ⟨?_, ok.pool, ok.owners, ok.arrays⟩
  refine { ok.tree with rootActive := root, slot := ?_, queued := ?_, once := ?_, parent := ?_ }
  · exact fun q hq active => ok.tree.slot q hq (before q active)
  · exact fun q hq active i below =>
      .inl ((ok.tree.queued q hq (before q active) i below).resolve_right (by simp))
  · exact fun q hq active => ok.tree.once q hq (before q active)
  · intro d queued
    obtain ⟨live, active, slot⟩ := ok.tree.parent d queued
    exact ⟨live, after _ (active.resolve_right (by simp)), slot⟩

theorem active_creating (q : Nat) : Active (.creating t) s q ↔ Active .idle s q := by
  simp [Active]

theorem Inv.creating (ok : Inv init .idle s) (t : Nat) : Inv init (.creating t) s :=
  ok.rephase (fun q => (active_creating q).mp) ((active_creating init).mpr ok.tree.rootActive)
    fun q active => .inl ((active_creating q).mpr active)

theorem Inv.enqueue (ok : Inv init (.creating t) s) (new : ¬Live init s t) (reserved : t ∈ s.reserved)
    (known : (s.threads t).number < s.begun)
    (unique : ∀ q, Live init s q → (s.threads q).number ≠ (s.threads t).number)
    (array : ArrayOk s t) (none : (s.threads t).nChildren = 0) (parent : Live init s (s.threads t).parent)
    (active : Active (.creating t) s (s.threads t).parent)
    (slot : ∃ i < (s.threads (s.threads t).parent).nChildren, child s (s.threads t).parent i = t) :
    Grown init .idle s { s with taskQueue := s.taskQueue ++ [t] } := by
  have live : ∀ q, Live init { s with taskQueue := s.taskQueue ++ [t] } q → Live init s q ∨ q = t := by
    intro q hq
    unfold Live at hq ⊢
    simpa [or_assoc] using hq
  have same : ∀ q, Active .idle s q → Active (.creating t) s q := fun q => (active_creating q).mpr
  have more : ∀ q, Live init s q → Live init { s with taskQueue := s.taskQueue ++ [t] } q :=
    fun q hq => hq.imp_right (mem_append_left _)
  constructor
  · refine ⟨?_, ok.pool, ok.owners, ?_⟩
    · constructor
      · apply nodup_append.mpr
        refine ⟨ok.tree.nodup, nodup_singleton t, ?_⟩
        rintro q queued r mem rfl
        exact new (.inr (mem_singleton.mp mem ▸ queued))
      · intro queued
        cases mem_append.mp queued with
        | inl queued => exact ok.tree.root queued
        | inr last => exact new (.inl (mem_singleton.mp last).symm)
      · exact (active_creating init).mp ok.tree.rootActive
      · intro q hq
        cases live q hq with
        | inl hq => exact ok.tree.stack q hq
        | inr eq => exact eq ▸ reserved
      · intro q hq
        cases live q hq with
        | inl hq => exact ok.tree.number q hq
        | inr eq => exact eq ▸ known
      · intro q r hq hr equal
        cases live q hq with
        | inl hq =>
          cases live r hr with
          | inl hr => exact ok.tree.distinct q r hq hr equal
          | inr eq => exact absurd (eq ▸ equal) (unique q hq)
        | inr eq =>
          cases live r hr with
          | inl hr => exact absurd (eq ▸ equal.symm) (unique r hr)
          | inr eq' => exact eq.trans eq'.symm
      · intro q hq hactive i below
        cases live q hq with
        | inl hq => exact ok.tree.slot q hq (same q hactive) i below
        | inr eq =>
          rw [eq, none] at below
          omega
      · intro q hq hactive i below
        cases live q hq with
        | inl hq =>
          refine .inl (mem_append.mpr ?_)
          cases ok.tree.queued q hq (same q hactive) i below with
          | inl queued => exact .inl queued
          | inr creating =>
            injection creating with eq
            exact .inr (mem_singleton.mpr eq.symm)
        | inr eq =>
          rw [eq, none] at below
          omega
      · intro q hq hactive i hi j hj equal
        cases live q hq with
        | inl hq => exact ok.tree.once q hq (same q hactive) i hi j hj equal
        | inr eq =>
          rw [eq, none] at hi
          omega
      · intro d queued
        cases mem_append.mp queued with
        | inl queued =>
          obtain ⟨plive, pactive, slot⟩ := ok.tree.parent d queued
          have pactive := pactive.resolve_right (by simp)
          exact ⟨more _ plive, .inl ((active_creating _).mp pactive), slot⟩
        | inr last =>
          rw [mem_singleton.mp last]
          exact ⟨more _ parent, .inl ((active_creating _).mp active), slot⟩
    · intro q hq
      cases live q hq with
      | inl hq =>
        exact (ok.arrays q hq).congr rfl rfl rfl rfl (fun _ => rfl) id (fun _ => id) (fun _ _ _ => id)
      | inr eq =>
        exact (eq ▸ array).congr rfl rfl rfl rfl (fun _ => rfl) id (fun _ => id) (fun _ _ _ => id)
  · exact ⟨fun _ mem => mem_append_left _ mem, fun _ _ => ⟨rfl, rfl, rfl, rfl⟩,
      fun _ mem _ _ => mem, fun _ _ _ => rfl⟩

end Ownership

end Illinix.Verified.Process
