import Illinix.Lib.Run
import Illinix.Verified.Process.BlockSteps

/-! # What `process_free` gives back

`process_free` frees every slot of the children array.  In front of `n_children` those are the threads
of children, which `place_children` leaves there when it moves the children to the parent.  So the
blocks are those of the process itself exactly when it has never had a child that it did not also see
freed.  Behind an array that was enlarged, the slots hold what was in the memory.  A child that `__exec`
gives up has no file table yet, and the field still holds what the pages had before. -/

namespace Illinix.Verified.Process

open Kernel Lib List Function

namespace Ownership

variable {init : Nat} {phase : Phase} {s s' s'' : Ownership} {p : Nat}
  {array hi n : Nat} {l : List Nat} {pages : StackPages} {use : BlockUse}

/-- Every address that `process_free(p)` passes to `kfree`, other than `NULL`, is a block of `p`, and
    none is passed twice. -/
def OnlyOwn (s : Ownership) (p : Nat) : Prop :=
  ∀ s', s.processFree p = .ok s' → ∃ freed, s'.released = s.released ++ freed ∧ freed.Nodup ∧
    ∀ a ∈ freed, ∃ b ∈ s.held, b.addr = a ∧ b.label.owner = (s.threads p).number

/-- The same for a list of addresses. -/
def Proper (s : Ownership) (n : Nat) (l : List Nat) : Prop :=
  (l.filter (· ≠ 0)).Nodup ∧ ∀ a ∈ l, a ≠ 0 → ∃ b ∈ s.held, b.addr = a ∧ b.label.owner = n

theorem onlyOwn_iff (done : s.processFree p = .ok s') (nonzero : p ≠ 0) :
    OnlyOwn s p ↔ Proper s (s.threads p).number (freedBlocks s p) := by
  have released : s'.released = s.released ++ (freedBlocks s p).filter (· ≠ 0) := by
    rw [(processFree_inv done nonzero).2.2.2]
    exact congrArg Pool.released (Pool.releaseAll_eq ..)
  unfold OnlyOwn Proper
  constructor
  · intro own
    obtain ⟨freed, same, nodup, held⟩ := own s' done
    rw [released] at same
    rw [append_cancel_left same]
    refine ⟨nodup, fun a mem some => held a ?_⟩
    rw [← append_cancel_left same]
    simp [mem, some]
  · rintro ⟨nodup, held⟩ t done'
    cases done.symm.trans done'
    refine ⟨_, released, nodup, fun a mem => ?_⟩
    rw [mem_filter, decide_eq_true_eq] at mem
    exact held a mem.1 mem.2

theorem Proper.perm {m : List Nat} (perm : l.Perm m) : Proper s n l ↔ Proper s n m := by
  unfold Proper
  rw [(perm.filter _).nodup_iff]
  simp only [perm.mem_iff]

theorem proper_cons {a : Nat} : Proper s n (a :: l) ↔
    Proper s n l ∧ (a = 0 ∨ (∃ b ∈ s.held, b.addr = a ∧ b.label.owner = n) ∧ a ∉ l) := by
  unfold Proper
  by_cases zero : a = 0
  · simp [zero]
  · simp only [filter_cons, ne_eq, zero, not_false_eq_true, decide_true, if_true, nodup_cons,
      mem_filter, and_true, mem_cons, forall_eq_or_imp, true_implies, false_or]
    tauto

theorem proper_append {m : List Nat} : Proper s n (l ++ m) ↔
    Proper s n l ∧ Proper s n m ∧ ∀ a ∈ m, a ≠ 0 → a ∉ l := by
  unfold Proper
  simp only [filter_append, nodup_append', List.Disjoint, mem_filter, decide_eq_true_eq, mem_append]
  constructor
  · rintro ⟨⟨first, second, apart⟩, held⟩
    exact ⟨⟨first, fun a mem => held a (.inl mem)⟩, ⟨second, fun a mem => held a (.inr mem)⟩,
      fun a mem some among => apart ⟨among, some⟩ ⟨mem, some⟩⟩
  · rintro ⟨⟨first, heldFirst⟩, ⟨second, heldSecond⟩, apart⟩
    exact ⟨⟨first, second, fun _ left right => apart _ right.1 right.2 left.1⟩,
      fun a mem some => mem.elim (fun mem => heldFirst a mem some) fun mem => heldSecond a mem some⟩

/-! ## The blocks by their use -/

theorem proper_flatten (pool : s.toPool.Ok) {groups : List (BlockUse × List Nat)}
    (uses : (groups.map Prod.fst).Nodup)
    (held : ∀ g ∈ groups, ∀ a ∈ g.2, a ≠ 0 → Holds s n a g.1)
    (once : ∀ g ∈ groups, (g.2.filter (· ≠ 0)).Nodup) :
    Proper s n (groups.map Prod.snd).flatten := by
  constructor
  · rw [filter_flatten, map_map, nodup_flatten]
    constructor
    · intro l mem
      obtain ⟨g, among, rfl⟩ := mem_map.mp mem
      exact once g among
    · rw [pairwise_map]
      have apart := pairwise_map.mp uses
      refine apart.imp_of_mem fun {g h} hg hh ne => ?_
      intro a left right
      simp only [comp_apply, mem_filter, decide_eq_true_eq] at left right
      exact ne ((held g hg a left.1 left.2).unique pool (held h hh a right.1 right.2)).2
  · intro a mem some
    obtain ⟨l, among, mem⟩ := mem_flatten.mp mem
    obtain ⟨g, member, rfl⟩ := mem_map.mp among
    exact ⟨_, held g member a mem some, rfl, rfl⟩

theorem Slots.nodup (slots : Slots s n array 0 hi use) :
    (((range hi).map (s.words array)).filter (· ≠ 0)).Nodup := by
  rw [filter_map]
  apply (nodup_range.filter _).map_on
  intro i hi j hj same
  simp only [mem_filter, mem_range, comp_apply, decide_eq_true_eq] at hi hj
  exact slots.once i j (by omega) hi.1 (by omega) hj.1 hi.2 same

theorem Slots.holds (slots : Slots s n array 0 hi use) :
    ∀ a ∈ (range hi).map (s.words array), a ≠ 0 → Holds s n a use := by
  intro a mem some
  obtain ⟨i, below, rfl⟩ := mem_map.mp mem
  exact (slots.held i (by omega) (mem_range.mp below)).resolve_left some

/-! ## Complete processes -/

/-- The context and the arguments of a process. -/
structure Begun (s : Ownership) (p : Nat) : Prop where
  context : (s.threads p).context = 0 ∨ Holds s (s.threads p).number (s.threads p).context .context
  argv : Holds s (s.threads p).number (s.threads p).argv .argv
  arguments : Slots s (s.threads p).number (s.threads p).argv 0 maxArgs .argument

/-- The file table, too: a process that `do_fork` or `__exec` has completed. -/
structure Built (s : Ownership) (p : Nat) : Prop extends Begun s p where
  fds : (s.threads p).fds = 0 ∨ Holds s (s.threads p).number (s.threads p).fds .files

/-- What `process_free` gives back apart from the file table and the slots for children, by use. -/
def groups (s : Ownership) (p : Nat) : List (BlockUse × List Nat) :=
  let t := s.threads p
  [(.context, [t.context]), (.argument, (range maxArgs).map (s.words t.argv)), (.argv, [t.argv]),
    (.children, if t.children = 0 then [] else [t.children])]

/-- The slots of the children array. -/
def slotList (s : Ownership) (p : Nat) : List Nat :=
  let t := s.threads p
  if t.children = 0 then [] else (range t.maxChildren).map (s.words t.children)

theorem freedBlocks_perm (s : Ownership) (p : Nat) :
    (freedBlocks s p).Perm (((s.threads p).fds :: ((groups s p).map Prod.snd).flatten) ++ slotList s p) := by
  -- each address is in both lists equally often
  rw [perm_iff_count]
  intro a
  unfold freedBlocks groups slotList
  simp only
  split <;> simp only [map_cons, map_nil, flatten_cons, flatten_nil, count_append,
    count_cons, count_nil] <;> omega

theorem Begun.groups_holds (begun : Begun s p) (array : ArrayOk s p) :
    ∀ g ∈ groups s p, (∀ a ∈ g.2, a ≠ 0 → Holds s (s.threads p).number a g.1) ∧
      (g.2.filter (· ≠ 0)).Nodup := by
  have single : ∀ a, ([a].filter fun x : Nat => decide (x ≠ 0)).Nodup := fun a =>
    (nodup_singleton a).filter _
  unfold groups
  simp only [forall_mem_cons, not_mem_nil, false_implies, implies_true, and_true]
  refine ⟨⟨?_, single _⟩, ⟨begun.arguments.holds, begun.arguments.nodup⟩, ⟨?_, single _⟩, ?_⟩
  · exact fun some => begun.context.resolve_left some
  · exact fun _ => begun.argv
  · split
    · simp
    · next some =>
      refine ⟨?_, single _⟩
      simpa using fun _ => array.array some

theorem Begun.proper_groups (begun : Begun s p) (pool : s.toPool.Ok) (array : ArrayOk s p) :
    Proper s (s.threads p).number ((groups s p).map Prod.snd).flatten := by
  have holds := begun.groups_holds array
  apply proper_flatten pool
  · show [BlockUse.context, .argument, .argv, .children].Nodup
    decide
  · exact fun g mem => (holds g mem).1
  · exact fun g mem => (holds g mem).2

theorem Built.groups_holds (built : Built s p) (array : ArrayOk s p) :
    ∀ g ∈ (BlockUse.files, [(s.threads p).fds]) :: groups s p,
      (∀ a ∈ g.2, a ≠ 0 → Holds s (s.threads p).number a g.1) ∧ (g.2.filter (· ≠ 0)).Nodup := by
  rw [forall_mem_cons]
  refine ⟨⟨?_, (nodup_singleton _).filter _⟩, built.toBegun.groups_holds array⟩
  simpa using fun some => built.fds.resolve_left some

/-- The slots for children are `NULL` or blocks of the process, different from each other and from what
    `process_free` gives back before. -/
def SlotsOwn (s : Ownership) (p : Nat) : Prop :=
  Proper s (s.threads p).number (slotList s p) ∧
    ∀ a ∈ slotList s p, a ≠ 0 → a ∉ (s.threads p).fds :: ((groups s p).map Prod.snd).flatten

theorem Built.proper_iff (built : Built s p) (pool : s.toPool.Ok) (array : ArrayOk s p) :
    Proper s (s.threads p).number (freedBlocks s p) ↔ SlotsOwn s p := by
  have holds := built.groups_holds array
  have fixed : Proper s (s.threads p).number ((s.threads p).fds :: ((groups s p).map Prod.snd).flatten) := by
    apply @proper_flatten s _ pool ((BlockUse.files, [(s.threads p).fds]) :: groups s p)
    · show [BlockUse.files, .context, .argument, .argv, .children].Nodup
      decide
    · exact fun g mem => (holds g mem).1
    · exact fun g mem => (holds g mem).2
  rw [Proper.perm (freedBlocks_perm s p), proper_append]
  exact and_iff_right fixed

/-- The slots of an array of the first size are placeholders, when there are no children. -/
theorem Built.slotsOwn (built : Built s p) (pool : s.toPool.Ok) (array : ArrayOk s p)
    (childless : (s.threads p).nChildren = 0) (size : (s.threads p).maxChildren = maxChildren) :
    SlotsOwn s p := by
  have holds := built.groups_holds array
  have slots : (∀ a ∈ slotList s p, a ≠ 0 → Holds s (s.threads p).number a .placeholder) ∧
      ((slotList s p).filter (· ≠ 0)).Nodup := by
    unfold slotList
    simp only
    split
    · simp
    · next some =>
      have slots := array.slots some size
      rw [childless, ← size] at slots
      exact ⟨slots.holds, slots.nodup⟩
  have proper := @proper_flatten s (s.threads p).number pool
    ((BlockUse.files, [(s.threads p).fds]) :: (groups s p ++ [(.placeholder, slotList s p)]))
    (by
      show [BlockUse.files, .context, .argument, .argv, .children, .placeholder].Nodup
      decide)
    (by
      rw [← cons_append, forall_mem_append, forall_mem_singleton]
      exact ⟨fun g mem => (holds g mem).1, slots.1⟩)
    (by
      rw [← cons_append, forall_mem_append, forall_mem_singleton]
      exact ⟨fun g mem => (holds g mem).2, slots.2⟩)
  have split : ((((BlockUse.files, [(s.threads p).fds]) :: (groups s p ++ [(.placeholder, slotList s p)])).map
      Prod.snd).flatten) = ((s.threads p).fds :: ((groups s p).map Prod.snd).flatten) ++ slotList s p := by
    simp
  rw [split, proper_append] at proper
  exact proper.2

/-- The slots of children are given back, too. -/
theorem ArrayOk.childless (array : ArrayOk s p)
    (proper : Proper s (s.threads p).number (freedBlocks s p)) : (s.threads p).nChildren = 0 := by
  by_contra some
  have above : 0 < (s.threads p).nChildren := Nat.pos_of_ne_zero some
  obtain ⟨nonzero, foreign⟩ := array.children 0 above
  have null : (s.threads p).children ≠ 0 := fun zero => some (array.empty zero)
  have freed : child s p 0 ∈ freedBlocks s p := by
    unfold freedBlocks child
    simp only [if_neg null, mem_append, mem_map, mem_range]
    exact .inr (.inl ⟨0, Nat.lt_of_lt_of_le above array.room, rfl⟩)
  obtain ⟨⟨a, n, use⟩, mem, rfl, rfl⟩ := proper.2 _ freed nonzero
  exact foreign use mem

theorem Begun.processFree_ok (begun : Begun s p) (ok : Inv init .idle s) (queued : p ∈ s.taskQueue) :
    ∃ s', s.processFree p = .ok s' := by
  obtain ⟨live, -, i, below, -⟩ := ok.tree.parent p queued
  have nonzero := ok.nonzero (.inr queued)
  have some : (s.threads (s.threads p).parent).nChildren ≠ 0 := by omega
  have array : (s.threads (s.threads p).parent).children ≠ 0 :=
    fun zero => some ((ok.arrays _ live).empty zero)
  have argv := ok.pool.nonzero _ begun.argv
  unfold Ownership.processFree
  simp only [if_neg nonzero, @freeBlocks_eq { s with size := killPid s.size } p argv, ok_bind]
  exact ⟨_, (if_neg some).trans (if_neg array)⟩

/-! ## Runs -/

/-- Every process is complete. -/
structure Valid (init : Nat) (s : Ownership) : Prop where
  inv : Inv init .idle s
  built : ∀ p ∈ s.taskQueue, Built s p

/-- The calls of a process that create, change or free processes. -/
inductive MemoryEvent where
  | fork (p : Nat) (pages : StackPages)
  /-- `execute`, up to the start of the program. -/
  | execute (p : Nat) (pages : StackPages) (args : Option Argv) (loaded : Bool)
  /-- the end of `execute`, when the process is woken up. -/
  | executed (p : Nat)
  /-- a call that uses the file table. -/
  | files (p : Nat)
  | execv (p argc : Nat) (loaded : Bool)
  | exit (p : Nat)

namespace MemoryEvent

def actor : MemoryEvent → Nat
  | fork p _ | execute p _ _ _ | executed p | files p | execv p _ _ | exit p => p

/-- `init` makes processes only. -/
def Creates : MemoryEvent → Prop
  | fork _ _ | execute _ _ _ _ => True
  | _ => False

def exec (s : Ownership) : MemoryEvent → Except MemoryFault Ownership
  | fork p pages => s.doFork pages p
  | execute p pages args loaded => s.exec pages p args loaded
  | executed p => s.executeEnd p
  | files p => s.fdcopy p
  | execv p argc loaded => s.doExecv p argc loaded
  | exit p => s.doExit p

/-- The child that `__exec` has created when `pro_loader` is called, and the memory at that time. -/
def execCreated (s : Ownership) (pages : StackPages) (parent : Nat) (args : Argv) :
    Except MemoryFault (Nat × Ownership) := do
  let (number, s) := s.begin
  let (argv, s) ← s.argvCreate number
  s.execCreate pages parent number argv args

/-- The call of `process_free`, if there is one: the process, and the memory at that time. -/
def freeing (s : Ownership) : MemoryEvent → Option (Nat × Ownership)
  | execute p pages (some args) false => (execCreated s pages p args).toOption
  | executed p => (s.executeEndAt p).toOption
  | _ => none

/-- A running process makes the call. -/
def Legal (init : Nat) (s : Ownership) (e : MemoryEvent) : Prop :=
  (s.threads e.actor).state ≠ .exited ∧ (e.actor ∈ s.taskQueue ∨ e.actor = init ∧ e.Creates)

end MemoryEvent

/-- A call that returns, in which `process_free` gives back blocks of the process only. -/
def CleanStep (init : Nat) (s : Ownership) (e : MemoryEvent) (s' : Ownership) : Prop :=
  e.Legal init s ∧ e.exec s = .ok s' ∧ ∀ c t, e.freeing s = some (c, t) → OnlyOwn t c

/-- The memory before the first process: `init` has no children, and no block is allocated for a
    process to come. -/
structure Booted (init : Nat) (s : Ownership) : Prop where
  pool : s.toPool.Ok
  owners : ∀ b ∈ s.held, b.label.owner < s.begun
  queue : s.taskQueue = []
  stack : init ∈ s.reserved
  number : (s.threads init).number < s.begun
  state : (s.threads init).state ≠ .exited
  array : (s.threads init).children = 0
  childless : (s.threads init).nChildren = 0
  size : (s.threads init).maxChildren = maxChildren

theorem Booted.valid (boot : Booted init s) : Valid init s := by
  have live : ∀ q, Live init s q → q = init := by
    intro q hq
    simpa [Live, boot.queue] using hq
  have none : ∀ q, Live init s q → ∀ i, ¬ i < (s.threads q).nChildren := by
    intro q hq i
    rw [live q hq, boot.childless]
    exact Nat.not_lt_zero i
  constructor
  · refine ⟨?_, boot.pool, boot.owners, ?_⟩
    · constructor
      · simp [boot.queue]
      · simp [boot.queue]
      · exact ⟨boot.state, by simp⟩
      · exact fun q hq => live q hq ▸ boot.stack
      · exact fun q hq => live q hq ▸ boot.number
      · exact fun q r hq hr _ => (live q hq).trans (live r hr).symm
      · exact fun q hq _ i below => absurd below (none q hq i)
      · exact fun q hq _ i below => absurd below (none q hq i)
      · exact fun q hq _ i below => absurd below (none q hq i)
      · simp [boot.queue]
    · intro q hq
      rw [live q hq]
      constructor
      · exact fun some => absurd boot.array some
      · exact fun _ => boot.childless
      · rw [boot.childless]
        exact Nat.zero_le _
      · exact Nat.le_of_eq boot.size.symm
      · exact fun some => absurd boot.array some
      · intro i below
        rw [boot.childless] at below
        omega
  · simp [boot.queue]

/-! ## One call -/

theorem Begun.congr (begun : Begun s p) (number : (s'.threads p).number = (s.threads p).number)
    (context : (s'.threads p).context = (s.threads p).context)
    (argv : (s'.threads p).argv = (s.threads p).argv)
    (held : ∀ a use, use ≠ .children → use ≠ .area → Holds s (s.threads p).number a use →
      Holds s' (s.threads p).number a use)
    (words : s'.words (s.threads p).argv = s.words (s.threads p).argv) : Begun s' p := by
  constructor <;> rw [number]
  · rw [context]
    exact begun.context.imp_right (held _ _ (by decide) (by decide))
  · rw [argv]
    exact held _ _ (by decide) (by decide) begun.argv
  · rw [argv]
    exact begun.arguments.mono words fun a => held a _ (by decide) (by decide)

theorem Begun.keeps (begun : Begun s p) (keeps : Keeps init s s') (queued : p ∈ s.taskQueue) :
    Begun s' p := by
  obtain ⟨number, context, -, argv⟩ := keeps.thread p (.inr queued)
  exact begun.congr number context argv (fun a use array area held => keeps.holds held array area)
    (keeps.words _ begun.argv rfl)

theorem Built.keeps (built : Built s p) (keeps : Keeps init s s') (queued : p ∈ s.taskQueue) :
    Built s' p := by
  refine ⟨built.toBegun.keeps keeps queued, ?_⟩
  obtain ⟨number, -, fds, -⟩ := keeps.thread p (.inr queued)
  rw [number, fds]
  exact built.fds.imp_right fun held => keeps.holds held (by decide) (by decide)

theorem Built.modify {q : Nat} (built : Built s p) (ne : p ≠ q) (f : Holdings → Holdings) :
    Built (s.modify q f) p := by
  have same : (s.modify q f).threads p = s.threads p := modify_threads_of_ne f ne
  refine ⟨built.toBegun.congr (by rw [same]) (by rw [same]) (by rw [same]) (fun _ _ _ _ => id) rfl, ?_⟩
  rw [same]
  exact built.fds

theorem Inv.modifyFields (ok : Inv init phase s) {f : Holdings → Holdings}
    (same : (f (s.threads p)).number = (s.threads p).number ∧ (f (s.threads p)).state = (s.threads p).state ∧
      (f (s.threads p)).parent = (s.threads p).parent ∧ (f (s.threads p)).children = (s.threads p).children ∧
      (f (s.threads p)).nChildren = (s.threads p).nChildren ∧
      (f (s.threads p)).maxChildren = (s.threads p).maxChildren) : Inv init phase (s.modify p f) := by
  obtain ⟨number, state, parent, children, count, size⟩ := same
  have number := modify_field (s := s) Holdings.number number
  have children := modify_field (s := s) Holdings.children children
  have count := modify_field (s := s) Holdings.nChildren count
  constructor
  · apply ok.tree.frame
    refine ⟨rfl, Nat.le_refl _, fun q mem => ⟨mem, modify_field Holdings.parent parent q⟩, ?_, ?_⟩
    · exact fun q _ => ⟨number q, modify_field Holdings.state state q, count q⟩
    · intro q _ i _
      unfold child
      rw [children]
      rfl
  · exact ok.pool
  · exact ok.owners
  · intro q hq
    exact (ok.arrays q hq).congr (number q) (children q) (count q) (modify_field Holdings.maxChildren size q)
      (fun _ => rfl) id (fun _ => id) (fun _ _ _ => id)

theorem fdInit_inv (done : s.fdInit p = .ok s') : (s.kmalloc (s.threads p).number .files).1 ≠ 0 ∧
      s' = (s.kmalloc (s.threads p).number .files).2.modify p fun t =>
        { t with fds := (s.kmalloc (s.threads p).number .files).1 } := by
  unfold Ownership.fdInit at done
  simp only at done
  split at done
  · cases done
  · next some =>
    cases done
    exact ⟨some, rfl⟩

theorem Inv.fdInit (ok : Inv init .idle s) (queued : p ∈ s.taskQueue) (active : Active .idle s p)
    (begun : Begun s p) (others : ∀ q ∈ s.taskQueue, q ≠ p → Built s q) (done : s.fdInit p = .ok s') :
    Valid init s' := by
  obtain ⟨some, rfl⟩ := fdInit_inv done
  have stays := ok.kmalloc .files (ok.tree.number p (.inr queued)) (ok.active_number (.inr queued) active)
  have held := holds_kmalloc some
  refine ⟨stays.inv.modifyFields ⟨rfl, rfl, rfl, rfl, rfl, rfl⟩, fun q among => ?_⟩
  by_cases eq : q = p
  · subst eq
    constructor
    · refine (begun.keeps stays.keeps queued).congr ?_ ?_ ?_ (fun _ _ _ _ => id) rfl <;>
        rw [modify_threads_self]
    · rw [modify_threads_self]
      exact .inr held
  · exact ((others q among eq).keeps stays.keeps among).modify eq _

theorem Inv.unused_begin (ok : Inv init .idle s) : Unused init s.begin.2 s.begun :=
  ⟨Nat.lt_succ_self _, fun q hq => Nat.ne_of_lt (ok.tree.number q hq)⟩

theorem Slots.nulls (slots : Slots s n array 0 hi use)
    (word : ∀ i, s'.words array i = 0 ∨ s'.words array i = s.words array i)
    (held : ∀ a, Holds s n a use → Holds s' n a use) : Slots s' n array 0 hi use := by
  constructor
  · intro i above below
    cases word i with
    | inl zero => exact .inl zero
    | inr same =>
      rw [same]
      exact (slots.held i above below).imp_right (held _)
  · intro i j hi below hj below' some same
    have first := (word i).resolve_left some
    have second := (word j).resolve_left (same ▸ some)
    rw [first] at some
    rw [first, second] at same
    exact slots.once i j hi below hj below' some same

theorem Slots.setArgs {argv : Nat} (slots : Slots s n argv 0 maxArgs use) (args : Argv) :
    Slots (s.setArgs argv args) n argv 0 maxArgs use := by
  refine slots.nulls (fun i => ?_) fun _ => id
  unfold Ownership.setArgs
  simp only [update_self]
  split_ifs <;> simp

/-- The child of `__exec` when `pro_loader` is called: all but its file table is there, which is what the
    pages held before. -/
structure HalfBuilt (init : Nat) (s : Ownership) (pages : StackPages) (parent c : Nat) : Prop where
  inv : Inv init .idle s
  queued : c ∈ s.taskQueue
  begun : Begun s c
  others : ∀ q ∈ s.taskQueue, q ≠ c → Built s q
  childless : (s.threads c).nChildren = 0
  array : (s.threads c).children = 0
  active : Active .idle s c
  fds : (s.threads c).fds = pages.stale.fds
  last : s.lastChild (s.threads c).parent = .ok c

/-- The argument vector of a process to come. -/
theorem Valid.argvCreate (valid : Valid init s) {argv : Nat} (args : Argv)
    (done : s.begin.2.argvCreate s.begun = .ok (argv, s')) :
    Inv init .idle (s'.setArgs argv args) ∧ Keeps init s (s'.setArgs argv args) ∧
      Frame init s (s'.setArgs argv args) ∧ Unused init (s'.setArgs argv args) s.begun ∧
      Holds (s'.setArgs argv args) s.begun argv .argv ∧
      Slots (s'.setArgs argv args) s.begun argv 0 maxArgs .argument := by
  have begin_stays := valid.inv.begin
  have unused := valid.inv.unused_begin
  have stays := begin_stays.trans (begin_stays.inv.arrayCreate unused.known unused.active done)
  obtain ⟨nonzero, free, held, slots, filled⟩ := arrayCreate_inv done
  have apart : ∀ q, Live init s' q → (s'.threads q).children ≠ argv := by
    intro q hq
    rw [filled.threads]
    exact begin_stays.inv.not_array ((stays.frame.live q).mp hq) nonzero free
  have frame : Frame init s (s'.setArgs argv args) := stays.frame.trans (frame_setWords _ apart)
  refine ⟨stays.inv.setWords _ apart, ?_, frame, ?_, held, slots.setArgs args⟩
  · refine ⟨stays.keeps.queue, stays.keeps.thread, stays.keeps.held, ?_⟩
    intro b mem use
    rw [← stays.keeps.words b mem use]
    apply update_of_ne
    rintro rfl
    exact free (Pool.inUse_of_mem mem)
  · exact ⟨Nat.lt_of_lt_of_le unused.known (Nat.le_of_eq filled.begun.symm), fun q hq => by
      rw [(frame.thread q ((frame.live q).mp hq)).1]
      exact unused.none q ((frame.live q).mp hq)⟩

theorem Valid.execCreated (valid : Valid init s) {parent c : Nat} {args : Argv}
    (live : Live init s parent) (active : Active .idle s parent)
    (done : MemoryEvent.execCreated s pages parent args = .ok (c, s')) :
    HalfBuilt init s' pages parent c := by
  unfold MemoryEvent.execCreated at done
  obtain ⟨⟨argv, s2⟩, alloc, done⟩ := bind_eq_ok.mp done
  unfold Ownership.execCreate at done
  obtain ⟨s4, create, done⟩ := bind_eq_ok.mp done
  obtain ⟨c', last, done⟩ := bind_eq_ok.mp done
  cases done
  obtain ⟨ok, keeps, frame, unused, held, slots⟩ := valid.argvCreate args alloc
  have live3 := (frame.live parent).mpr live
  have created := ok.processCreate live3 ((frame.active live).mpr active) unused create
  cases created.last.symm.trans last
  obtain ⟨context, mapList, thread, heldContext, -⟩ := created.thread
  have kept := created.grown.keeps
  have ne : parent ≠ pages.addr := fun eq => created.new (eq ▸ live3)
  have same : (s4.modify pages.addr fun t => { t with argv }).threads pages.addr =
      { s4.threads pages.addr with argv } := modify_threads_self ..
  constructor
  · exact created.grown.inv.modifyFields ⟨rfl, rfl, rfl, rfl, rfl, rfl⟩
  · show pages.addr ∈ s4.taskQueue
    rw [created.queue]
    simp
  · constructor <;> rw [same, thread]
    · exact heldContext
    · exact kept.holds held (by decide) (by decide)
    · exact (slots.mono (kept.words _ held rfl) fun a held => kept.holds held (by decide) (by decide)).mono
        rfl fun _ => id
  · intro q among ne
    have among : q ∈ s.taskQueue := by
      have among : q ∈ s4.taskQueue := among
      rw [created.queue, frame.queue] at among
      simpa [ne] using among
    exact ((valid.built q among).keeps (keeps.trans kept) among).modify ne _
  · rw [same, thread]
  · rw [same, thread]
  · refine ⟨?_, by simp⟩
    rw [same, thread]
    simp
  · rw [same, thread]
  · rw [same, thread]
    show (Ownership.modify _ _ _).lastChild parent = _
    rw [lastChild_eq_ok] at last ⊢
    unfold child at last ⊢
    rw [modify_threads_of_ne _ ne]
    exact last

/-- `process_free` of the last child of a process leaves the others complete. -/
theorem Inv.processFree_valid (ok : Inv init .idle s) (queued : p ∈ s.taskQueue)
    (others : ∀ q ∈ s.taskQueue, q ≠ p → Built s q) (childless : (s.threads p).nChildren = 0)
    (last : s.lastChild (s.threads p).parent = .ok p)
    (proper : Proper s (s.threads p).number (freedBlocks s p)) (done : s.processFree p = .ok s') :
    Valid init s' := by
  obtain ⟨inv, queue, held, words, field⟩ := ok.processFree queued childless last proper.2 done
  refine ⟨inv, fun q among => ?_⟩
  rw [queue, ok.tree.nodup.mem_erase_iff] at among
  obtain ⟨ne, among⟩ := among
  have built := others q among ne
  have number := field Holdings.number (fun _ _ => rfl) q
  have kept : ∀ a use, Holds s (s.threads q).number a use → Holds s' (s.threads q).number a use := by
    intro a use mem
    exact held _ mem fun same => ne (ok.tree.distinct q p (.inr among) (.inr queued) same)
  constructor
  · exact built.toBegun.congr number (field Holdings.context (fun _ _ => rfl) q)
      (field Holdings.argv (fun _ _ => rfl) q) (fun a use _ _ => kept a use) (words _ built.argv rfl)
  · rw [number, field Holdings.fds (fun _ _ => rfl) q]
    exact built.fds.imp_right (kept _ _)

theorem exec_some (s : Ownership) (pages : StackPages) (parent : Nat) (args : Argv) (loaded : Bool) :
    s.exec pages parent (some args) loaded = (do
      let (child, s) ← MemoryEvent.execCreated s pages parent args
      if loaded then s.fdInit child else s.processFree child) := by
  unfold Ownership.exec MemoryEvent.execCreated
  simp only [bind_assoc]

theorem Valid.exec (valid : Valid init s) {args : Option Argv} {loaded : Bool}
    (live : Live init s p) (active : Active .idle s p)
    (clean : ∀ c t, (MemoryEvent.execute p pages args loaded).freeing s = some (c, t) → OnlyOwn t c)
    (done : s.exec pages p args loaded = .ok s') : Valid init s' := by
  cases args with
  | none =>
    -- the vector is given back, the buffers are not
    unfold Ownership.exec at done
    obtain ⟨⟨argv, t⟩, alloc, done⟩ := bind_eq_ok.mp done
    cases done
    have unused := valid.inv.unused_begin
    have stays := valid.inv.begin.trans (valid.inv.begin.inv.arrayCreate unused.known unused.active alloc)
    obtain ⟨nonzero, free, held, -, filled⟩ := arrayCreate_inv alloc
    have inv : Inv init .idle (t.kfree argv) := by
      apply stays.inv.releaseAll (l := [argv])
      · intro q hq _ mem
        rw [filled.threads] at mem
        exact valid.inv.begin.inv.not_array ((stays.frame.live q).mp hq) nonzero free (mem_singleton.mp mem)
      · intro q _ a mem placeholder
        cases mem_singleton.mp mem
        cases (placeholder.unique stays.inv.pool held).2
    have keeps : Keeps init s (t.kfree argv) := by
      refine ⟨stays.keeps.queue, stays.keeps.thread, fun b mem array area => ?_, stays.keeps.words⟩
      apply Pool.mem_releaseAll (l := [argv]).mpr
      refine ⟨stays.keeps.held b mem array area, fun at_argv => ?_⟩
      exact absurd (mem_singleton.mp at_argv ▸ Pool.inUse_of_mem mem) free
    refine ⟨inv, fun q among => ?_⟩
    have among : q ∈ s.taskQueue := stays.frame.queue ▸ among
    exact (valid.built q among).keeps keeps among
  | some args =>
    rw [exec_some] at done
    obtain ⟨⟨c, t⟩, create, done⟩ := bind_eq_ok.mp done
    have half := valid.execCreated live active create
    cases loaded with
    | true => exact half.inv.fdInit half.queued half.active half.begun half.others done
    | false =>
      have own := clean c t (toOption_eq_some.mpr create)
      have nonzero := half.inv.nonzero (.inr half.queued)
      exact half.inv.processFree_valid half.queued half.others half.childless half.last
        ((onlyOwn_iff done nonzero).mp own) done

theorem Valid.executeEnd (valid : Valid init s) (live : Live init s p) (active : Active .idle s p)
    (clean : ∀ c t, (MemoryEvent.executed p).freeing s = some (c, t) → OnlyOwn t c)
    (done : s.executeEnd p = .ok s') : Valid init s' := by
  unfold Ownership.executeEnd at done
  obtain ⟨⟨c, t⟩, ending, done⟩ := bind_eq_ok.mp done
  have own := clean c t (toOption_eq_some.mpr ending)
  unfold Ownership.executeEndAt at ending
  obtain ⟨c', last, ending⟩ := bind_eq_ok.mp ending
  cases ending
  obtain ⟨some, array, slot⟩ := lastChild_eq_ok.mp last
  have parent : (s.threads c).parent = p := slot ▸ (valid.inv.tree.slot p live active _ (by omega)).2
  have queued : c ∈ s.taskQueue :=
    slot ▸ (valid.inv.tree.queued p live active _ (by omega)).resolve_right (by simp)
  have nonzero := valid.inv.nonzero (.inr queued)
  have proper := (onlyOwn_iff done nonzero).mp own
  have array' : ArrayOk (s.modify c fun t => { t with state := .exited }) c :=
    (valid.inv.arrays c (.inr queued)).congr (modify_field Holdings.number rfl c)
      (modify_field Holdings.children rfl c) (modify_field Holdings.nChildren rfl c)
      (modify_field Holdings.maxChildren rfl c) (fun _ => rfl) id (fun _ => id) (fun _ _ _ => id)
  have childless := array'.childless proper
  have inv : Inv init .idle (s.modify c fun t => { t with state := .exited }) := by
    apply valid.inv.exited
    · exact fun eq => valid.inv.tree.root (eq ▸ queued)
    · simp
    · simp
    · intro d among parent
      obtain ⟨-, -, i, below, -⟩ := valid.inv.tree.parent d among
      rw [parent, ← modify_field Holdings.nChildren (f := fun t => { t with state := .exited }) rfl c,
        childless] at below
      omega
  refine inv.processFree_valid queued ?_ childless ?_ proper done
  · exact fun q among ne => (valid.built q among).modify ne _
  · rw [modify_field Holdings.parent rfl, parent, lastChild_eq_ok]
    unfold child
    rw [modify_field Holdings.nChildren rfl, modify_field Holdings.children rfl]
    exact ⟨some, array, slot⟩

theorem Inv.release_areas (ok : Inv init phase s) (areas : ∀ a ∈ l, Holds s n a .area) :
    Grown init phase s { s with toPool := s.toPool.releaseAll l } := by
  constructor
  · apply ok.releaseAll
    · intro q hq some mem
      cases ((areas _ mem).unique ok.pool ((ok.arrays q hq).array some)).2
    · intro q hq a mem placeholder
      cases ((areas a mem).unique ok.pool placeholder).2
  · refine ⟨fun _ mem => mem, fun _ _ => ⟨rfl, rfl, rfl, rfl⟩, fun b mem _ area => ?_, fun _ _ _ => rfl⟩
    refine Pool.mem_releaseAll.mpr ⟨mem, fun among => ?_⟩
    rw [ok.pool.unique mem (areas _ among) rfl] at area
    exact absurd rfl area

theorem Inv.setMapList (ok : Inv init phase s) (t : Nat) (mapList : List Nat) :
    Grown init phase s (s.modify t fun h => { h with mapList }) := by
  refine ⟨ok.modifyFields ⟨rfl, rfl, rfl, rfl, rfl, rfl⟩, fun _ mem => mem, ?_, fun _ mem _ _ => mem,
    fun _ _ _ => rfl⟩
  exact fun q _ => ⟨modify_field Holdings.number rfl q, modify_field Holdings.context rfl q,
    modify_field Holdings.fds rfl q, modify_field Holdings.argv rfl q⟩

theorem Valid.doFork (valid : Valid init s) (live : Live init s p)
    (active : Active .idle s p) (done : s.doFork pages p = .ok s') : Valid init s' := by
  unfold Ownership.doFork at done
  obtain ⟨s2, create, done⟩ := bind_eq_ok.mp done
  obtain ⟨c, last, done⟩ := bind_eq_ok.mp done
  obtain ⟨⟨mapList, s4⟩, areas, done⟩ := bind_eq_ok.mp done
  obtain ⟨⟨argv, s6⟩, args, done⟩ := bind_eq_ok.mp done
  cases done
  have started := valid.inv.begin
  have created := started.inv.processCreate live active valid.inv.unused_begin create
  cases created.last.symm.trans last
  obtain ⟨context, old, thread, heldContext, heldAreas⟩ := created.thread
  have queued : pages.addr ∈ s2.taskQueue := by
    rw [created.queue]
    simp
  -- `vmcopy` replaces the areas
  rw [foldl_kfree] at areas
  have released := created.grown.inv.release_areas (l := (s2.threads pages.addr).mapList)
    (by rw [thread]; exact heldAreas)
  have known : s.begun < s2.begun := created.begun ▸ valid.inv.unused_begin.known
  have mine : ∀ q, Live init s2 q → (s2.threads q).number = s.begun → Active .idle s2 q := by
    intro q hq same
    have number : (s2.threads pages.addr).number = s.begun := by rw [thread]
    rw [created.grown.inv.tree.distinct q _ hq (.inr queued) (same.trans number.symm)]
    exact ⟨by rw [thread]; simp, by simp⟩
  have replaced := released.inv.areasCreate known mine areas
  obtain ⟨-, -, -, ⟨pool, rfl, -⟩, -⟩ := areasCreate_inv areas
  have listed := replaced.inv.setMapList pages.addr mapList
  -- the vector of arguments
  have filled := listed.inv.arrayCreate known (fun q hq same => by
    rw [modify_field Holdings.number rfl] at same
    unfold Active
    rw [modify_field Holdings.state rfl]
    exact mine q hq same) args
  obtain ⟨-, -, heldArgv, slots, same⟩ := arrayCreate_inv args
  have kept := released.keeps.trans (replaced.keeps.trans (listed.keeps.trans filled.keeps))
  have all := started.keeps.trans (created.grown.keeps.trans kept)
  obtain ⟨number, keptContext, -, -⟩ := kept.thread pages.addr (.inr queued)
  refine ⟨filled.inv.modifyFields ⟨rfl, rfl, rfl, rfl, rfl, rfl⟩, fun q among => ?_⟩
  by_cases eq : q = pages.addr
  · subst eq
    constructor
    · constructor <;> rw [modify_threads_self]
      · show (s6.threads pages.addr).context = 0 ∨
          Holds _ (s6.threads pages.addr).number (s6.threads pages.addr).context .context
        rw [number, keptContext, thread]
        exact heldContext.imp_right fun held => kept.holds held (by decide) (by decide)
      · show Holds _ (s6.threads pages.addr).number argv .argv
        rw [number, thread]
        exact heldArgv
      · show Slots _ (s6.threads pages.addr).number argv 0 maxArgs .argument
        rw [number, thread]
        exact slots.mono rfl fun _ => id
    · rw [modify_threads_self]
      exact .inl rfl
  · have among : q ∈ s6.taskQueue := among
    rw [same.taskQueue] at among
    have among : q ∈ s2.taskQueue := among
    rw [created.queue] at among
    have among : q ∈ s.begin.2.taskQueue := by simpa [eq] using among
    exact ((valid.built q among).keeps all among).modify eq _

section

variable (valid : Valid init s) (queued : p ∈ s.taskQueue)

include valid queued

theorem Valid.doExit (active : Active .idle s p) (done : s.doExit p = .ok s') : Valid init s' := by
  obtain ⟨grown, queue⟩ := valid.inv.doExit queued active done
  refine ⟨grown.inv, fun q among => ?_⟩
  rw [queue] at among
  exact (valid.built q among).keeps grown.keeps among

theorem Valid.fdcopy (active : Active .idle s p) (done : s.fdcopy p = .ok s') : Valid init s' := by
  unfold Ownership.fdcopy at done
  split at done
  · exact valid.inv.fdInit queued active (valid.built p queued).toBegun
      (fun q among _ => valid.built q among) done
  · cases done
    exact valid

theorem Valid.clearArg (i : Nat) : Valid init (s.store (s.threads p).argv i 0) := by
  have built := valid.built p queued
  constructor
  · apply valid.inv.setWords
    intro q hq same
    have label := valid.inv.array_use hq built.argv same.symm
    injection label with _ use
    cases use
  · intro q among
    have own := valid.built q among
    by_cases eq : q = p
    · subst eq
      refine ⟨⟨own.context, own.argv, own.arguments.nulls (fun j => ?_) fun _ => id⟩, own.fds⟩
      rw [store_words_self]
      split <;> simp
    · have ne : (s.threads q).argv ≠ (s.threads p).argv := by
        intro same
        have number := (own.argv.unique valid.inv.pool (same ▸ built.argv)).1
        exact eq (valid.inv.tree.distinct q p (.inr among) (.inr queued) number)
      exact ⟨own.toBegun.congr rfl rfl rfl (fun _ _ _ _ => id) (store_words_of_ne _ _ ne), own.fds⟩

/-- The file table is given back: the process is no longer complete. -/
theorem Valid.freeFiles (some : (s.threads p).fds ≠ 0) :
    Inv init .idle (s.kfree (s.threads p).fds) ∧ Begun (s.kfree (s.threads p).fds) p ∧
      ∀ q ∈ s.taskQueue, q ≠ p → Built (s.kfree (s.threads p).fds) q := by
  have built := valid.built p queued
  have files := built.fds.resolve_left some
  have kept : ∀ n a use, (n = (s.threads p).number → use ≠ .files) → Holds s n a use →
      Holds (s.kfree (s.threads p).fds) n a use := by
    intro n a use other held
    refine Pool.mem_releaseAll (l := [(s.threads p).fds]).mpr ⟨held, fun at_files => ?_⟩
    cases mem_singleton.mp at_files
    obtain ⟨owner, same⟩ := held.unique valid.inv.pool files
    exact absurd same (other owner)
  refine ⟨?_, ?_, ?_⟩
  · apply valid.inv.releaseAll (l := [(s.threads p).fds])
    · intro q hq array mem
      rw [mem_singleton] at mem
      cases ((mem ▸ (valid.inv.arrays q hq).array array).unique valid.inv.pool files).2
    · intro q hq a mem placeholder
      cases mem_singleton.mp mem
      cases (placeholder.unique valid.inv.pool files).2
  · constructor
    · exact built.context.imp_right (kept _ _ _ fun _ => by decide)
    · exact kept _ _ _ (fun _ => by decide) built.argv
    · exact built.arguments.mono rfl fun a => kept _ a _ fun _ => by decide
  · intro q among ne
    have other : (s.threads q).number ≠ (s.threads p).number :=
      fun same => ne (valid.inv.tree.distinct q p (.inr among) (.inr queued) same)
    have own := valid.built q among
    exact ⟨own.toBegun.congr rfl rfl rfl (fun a use _ _ => kept _ a use fun same => absurd same other) rfl,
      own.fds.imp_right (kept _ _ _ fun same => absurd same other)⟩

theorem Valid.doExecv {argc : Nat} {loaded : Bool}
    (active : Active .idle s p) (done : s.doExecv p argc loaded = .ok s') : Valid init s' := by
  unfold Ownership.doExecv at done
  simp only at done
  split at done
  · cases done
  · have cleared : Valid init (if argc < maxArgs then s.store (s.threads p).argv argc 0 else s) := by
      split
      · exact valid.clearArg queued argc
      · exact valid
    have threads : (if argc < maxArgs then s.store (s.threads p).argv argc 0 else s).threads = s.threads := by
      split <;> rfl
    have queue : (if argc < maxArgs then s.store (s.threads p).argv argc 0 else s).taskQueue =
        s.taskQueue := by
      split <;> rfl
    generalize (if argc < maxArgs then s.store (s.threads p).argv argc 0 else s) = t at *
    split at done
    · next fresh =>
      rw [← threads] at done fresh
      have queued : p ∈ t.taskQueue := queue ▸ queued
      obtain ⟨inv, begun, others⟩ := cleared.freeFiles queued fresh.2
      refine inv.fdInit queued ?_ begun others done
      show Active .idle t p
      unfold Active
      rw [threads]
      exact active
    · cases done
      exact cleared

end

theorem Valid.step {e : MemoryEvent} (valid : Valid init s) (step : CleanStep init s e s') :
    Valid init s' := by
  obtain ⟨⟨running, actor⟩, done, clean⟩ := step
  have active : Active .idle s e.actor := ⟨running, by simp⟩
  cases e with
  | fork p pages => exact valid.doFork (actor.symm.imp_left And.left) active done
  | execute p pages args loaded => exact valid.exec (actor.symm.imp_left And.left) active clean done
  | executed p =>
    exact valid.executeEnd (actor.symm.imp_left And.left) active clean done
  | files p => exact valid.fdcopy (actor.resolve_right fun init => init.2) active done
  | execv p argc loaded => exact valid.doExecv (actor.resolve_right fun init => init.2) active done
  | exit p => exact valid.doExit (actor.resolve_right fun init => init.2) active done

/-! ## The result -/

/-- A block of the process that `process_free` does not give back otherwise: it has lost the pointer. -/
def Spare (s : Ownership) (p a : Nat) : Prop :=
  (∃ b ∈ s.held, b.addr = a ∧ b.label.owner = (s.threads p).number) ∧
    a ∉ ((groups s p).map Prod.snd).flatten

theorem HalfBuilt.onlyOwn_iff {parent c : Nat} (half : HalfBuilt init s pages parent c)
    (done : s.processFree c = .ok s') :
    OnlyOwn s c ↔ pages.stale.fds = 0 ∨ Spare s c pages.stale.fds := by
  have nonzero := half.inv.nonzero (.inr half.queued)
  have rest := half.begun.proper_groups half.inv.pool (half.inv.arrays c (.inr half.queued))
  have slots : slotList s c = [] := by
    unfold slotList
    simp only [half.array, if_true]
  rw [Ownership.onlyOwn_iff done nonzero, Proper.perm (freedBlocks_perm s c), slots, append_nil,
    proper_cons, half.fds]
  exact and_iff_right rest

/-- As long as every earlier `process_free` has given back blocks of its process only, it does so exactly
    when the process has no children and the slots behind them hold blocks of its own, which they do
    unless the array has been enlarged.  For the child that a failed `__exec` frees, it does so exactly
    when the pages held no file table from before, or one that is a block of the child by chance. -/
theorem process_free_own_iff {start : Ownership} {events : List MemoryEvent} (boot : Booted init start)
    (run : Run (CleanStep init) start events s) :
    (∀ p ∈ s.taskQueue, (∃ s', s.processFree p = .ok s') ∧
      (OnlyOwn s p ↔ (s.threads p).nChildren = 0 ∧ SlotsOwn s p) ∧
      ((s.threads p).maxChildren = maxChildren → (s.threads p).nChildren = 0 → OnlyOwn s p)) ∧
    ∀ parent pages args c t, (MemoryEvent.execute parent pages (some args) false).Legal init s →
      (MemoryEvent.execute parent pages (some args) false).freeing s = some (c, t) →
      (∃ s', t.processFree c = .ok s') ∧
        (OnlyOwn t c ↔ pages.stale.fds = 0 ∨ Spare t c pages.stale.fds) := by
  have valid : Valid init s := run.invariant (fun _ _ _ valid step => valid.step step) boot.valid
  constructor
  · intro p queued
    have built := valid.built p queued
    have array := valid.inv.arrays p (.inr queued)
    have nonzero := valid.inv.nonzero (.inr queued)
    obtain ⟨s', done⟩ := built.processFree_ok valid.inv queued
    have proper := built.proper_iff valid.inv.pool array
    rw [onlyOwn_iff done nonzero]
    refine ⟨⟨s', done⟩, ⟨fun own => ⟨array.childless own, proper.mp own⟩, fun own => proper.mpr own.2⟩, ?_⟩
    exact fun size childless => proper.mpr (built.slotsOwn valid.inv.pool array childless size)
  · intro parent pages args c t legal freeing
    have live : Live init s parent := legal.2.symm.imp_left And.left
    have half := valid.execCreated live ⟨legal.1, by simp⟩ (toOption_eq_some.mp freeing)
    obtain ⟨s', done⟩ := half.begun.processFree_ok half.inv half.queued
    exact ⟨⟨s', done⟩, half.onlyOwn_iff done⟩

/-- Pages that were never used. -/
def emptyHoldings : Holdings := ⟨0, .unused, 0, 0, 0, 0, 0, 0, 0, []⟩

/-- `init` in the pages at 1, and addresses from 100 on for `kmalloc`, which has no room for placeholders. -/
def bootMemory : Ownership :=
  { held := []
    reserved := [1]
    supply := range' 100 13 ++ replicate 100 0 ++ range' 200 17 ++ replicate 100 0 ++
      range' 300 6 ++ replicate 100 0 ++ range' 400 17
    released := []
    threads := fun _ => { emptyHoldings with state := .running, maxChildren := maxChildren }
    words := fun _ _ => 0
    begun := 1
    size := 2
    taskQueue := [] }

/-- A command of one word. -/
def oneArgument : Argv := fun i => if i.val = 1 then none else some fun _ => 0

instance (init : Nat) (s : Ownership) (e : MemoryEvent) : Decidable (e.Legal init s) :=
  match e with
  | .fork p _ | .execute p _ _ _ =>
    inferInstanceAs (Decidable ((s.threads p).state ≠ .exited ∧ (p ∈ s.taskQueue ∨ p = init ∧ True)))
  | .executed p | .files p | .execv p _ _ | .exit p =>
    inferInstanceAs (Decidable ((s.threads p).state ≠ .exited ∧ (p ∈ s.taskQueue ∨ p = init ∧ False)))

theorem bootMemory_booted : Booted 1 bootMemory := by
  have none : ∀ b, b ∉ bootMemory.held := fun _ => not_mem_nil
  constructor
  · exact ⟨.nil, fun b mem => absurd mem (none b), fun b mem => absurd mem (none b), by decide, by decide⟩
  · exact fun b mem => absurd mem (none b)
  · rfl
  · exact mem_singleton_self 1
  · exact Nat.zero_lt_one
  · exact ProState.noConfusion
  · rfl
  · rfl
  · rfl

/-- A call that gets to no `process_free`, or to one that gives back blocks of its process only. -/
def FreesOwn (s : Ownership) (e : MemoryEvent) : Prop :=
  ∀ r ∈ e.freeing s, r.1 ≠ 0 ∧ Proper r.2 (r.2.threads r.1).number (freedBlocks r.2 r.1)

instance (s : Ownership) (n : Nat) (l : List Nat) : Decidable (Proper s n l) :=
  inferInstanceAs (Decidable (_ ∧ ∀ a ∈ l, a ≠ 0 → ∃ b ∈ s.held, b.addr = a ∧ b.label.owner = n))

instance (s : Ownership) (e : MemoryEvent) : Decidable (FreesOwn s e) :=
  inferInstanceAs (Decidable (∀ r ∈ e.freeing s, r.1 ≠ 0 ∧ Proper r.2 _ _))

theorem cleanStep_of_freesOwn {e : MemoryEvent} (pass : e.Legal init s ∧ FreesOwn s e)
    (done : (e.exec s).toOption = some s') : CleanStep init s e s' := by
  refine ⟨pass.1, toOption_eq_some.mp done, fun c t free s' freed => ?_⟩
  obtain ⟨nonzero, proper⟩ := pass.2 (c, t) free
  exact (onlyOwn_iff freed nonzero).mpr proper s' freed

/-- The program that `init` has started, after it has run and freed a child. -/
theorem process_free_own_parent : ∃ s, Run (CleanStep 1) bootMemory
    [.execute 1 ⟨2, emptyHoldings⟩ (some oneArgument) true, .execute 2 ⟨3, emptyHoldings⟩ (some oneArgument) true,
      .exit 3, .executed 2] s ∧ s.taskQueue = [2] ∧ OnlyOwn s 2 := by
  have found : (attempt (fun s e => MemoryEvent.Legal 1 s e ∧ FreesOwn s e)
      (fun s e => (e.exec s).toOption) bootMemory
      [.execute 1 ⟨2, emptyHoldings⟩ (some oneArgument) true, .execute 2 ⟨3, emptyHoldings⟩ (some oneArgument) true,
        .exit 3, .executed 2]).any (fun s =>
        s.taskQueue = [2] ∧ (s.threads 2).maxChildren = maxChildren ∧ (s.threads 2).nChildren = 0) = true := by
    decide +kernel
  obtain ⟨s, run, good⟩ := exists_run (CleanStep 1) (fun _ _ _ => cleanStep_of_freesOwn) found
  obtain ⟨queue, size, childless⟩ := of_decide_eq_true good
  have queued : 2 ∈ s.taskQueue := queue ▸ mem_singleton_self 2
  exact ⟨s, run, queue, ((process_free_own_iff bootMemory_booted run).1 2 queued).2.2 size childless⟩

/-- The process at 3 forks the one at 4 and exits, so that 4 becomes a child of 2.  When 2 frees 3, the
    thread of 4 is passed to `kfree`, although 4 is in `task_queue`. -/
theorem process_free_frees_live_child : ∃ s, Run (CleanStep 1) bootMemory
      [.execute 1 ⟨2, emptyHoldings⟩ (some oneArgument) true,
        .execute 2 ⟨3, emptyHoldings⟩ (some oneArgument) true, .fork 3 ⟨4, emptyHoldings⟩, .exit 3] s ∧
    3 ∈ s.taskQueue ∧ (s.threads 4).parent = 2 ∧
    ∃ s', s.processFree 3 = .ok s' ∧ 4 ∈ s'.released ∧ 4 ∈ s'.taskQueue ∧ ¬OnlyOwn s 3 := by
  have found : (attempt (fun s e => MemoryEvent.Legal 1 s e ∧ FreesOwn s e)
      (fun s e => (e.exec s).toOption) bootMemory
      [.execute 1 ⟨2, emptyHoldings⟩ (some oneArgument) true,
        .execute 2 ⟨3, emptyHoldings⟩ (some oneArgument) true, .fork 3 ⟨4, emptyHoldings⟩, .exit 3]).any
      (fun s => (3 ∈ s.taskQueue ∧ (s.threads 4).parent = 2 ∧ 4 ∉ s.released ∧ ∀ b ∈ s.held, b.addr ≠ 4) ∧
        okAnd (s.processFree 3) fun s' => 4 ∈ s'.released ∧ 4 ∈ s'.taskQueue) = true := by
    decide +kernel
  obtain ⟨s, run, bad⟩ := exists_run (CleanStep 1) (fun _ _ _ => cleanStep_of_freesOwn) found
  obtain ⟨⟨queued, parent, before, free⟩, freed⟩ := of_decide_eq_true bad
  obtain ⟨s', done, after⟩ := okAnd_iff.mp freed
  obtain ⟨released, live⟩ := of_decide_eq_true after
  refine ⟨s, run, queued, parent, s', done, released, live, fun own => ?_⟩
  obtain ⟨l, same, -, held⟩ := own s' done
  rw [same, mem_append] at released
  obtain ⟨b, mem, addr, -⟩ := held 4 (released.resolve_left before)
  exact free b mem addr

end Ownership

end Illinix.Verified.Process
