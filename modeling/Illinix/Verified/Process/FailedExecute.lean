import Illinix.Verified.Process.FreeOwn

/-! # What a failed `execute` leaves behind

`__exec` gives back the argument vector when the command cannot be parsed, but not the argument buffers.
When the program cannot be loaded, `process_free` gives back the vector, the context and the buffers that
the vector still points to, but not the three areas of `process_vm_init`.  One of these may be reached
through the file table that was in the pages before, and another may lie where the old children array of
the parent was, so that one of the three is always left. -/

namespace Illinix.Verified.Process

open Kernel Lib List Function

namespace Ownership

variable {s s' s'' : Ownership} {current number parent task : Nat} {k : ExecState} {pages : StackPages}

/-! ## The slot of a new child, without assumptions on the tree -/

theorem Filled.words_of_inUse {array a : Nat} (filled : Filled s s' array) (free : ¬s.InUse array)
    (used : s.InUse a) : s'.words a = s.words a := by
  apply filled.words
  rintro rfl
  exact free used

theorem inUse_kfree {a x : Nat} (used : s.InUse a) : a = x ∨ (s.kfree x).InUse a := by
  by_cases eq : a = x
  · exact .inl eq
  · refine .inr ?_
    cases used with
    | inl mem =>
      obtain ⟨b, held, rfl⟩ := mem_map.mp mem
      apply Pool.inUse_of_mem
      exact Pool.mem_releaseAll (l := [x]).mpr ⟨held, fun at_x => absurd (mem_singleton.mp at_x) eq⟩
    | inr mem => exact .inr ((Pool.reserved_releaseAll s.toPool [x]).symm ▸ mem)

theorem childrenInit_inv (done : s.childrenInit task = .ok s') :
    s' = s ∨ ∃ array t, s.childrenCreate (s.threads task).number = .ok (array, t) ∧
      s' = t.modify task fun h => { h with children := array } := by
  unfold Ownership.childrenInit at done
  split at done
  · obtain ⟨⟨array, t⟩, create, done⟩ := bind_eq_ok.mp done
    cases done
    exact .inr ⟨array, t, create, rfl⟩
  · cases done
    exact .inl rfl

theorem overflowChildren_inv (done : s.overflowChildren task = .ok s') :
    s' = s ∨ (s.kmalloc (s.threads task).number .children).1 ≠ 0 ∧
      s' = (((s.kmalloc (s.threads task).number .children).2.copyWords
        (s.kmalloc (s.threads task).number .children).1 (s.threads task).children
        (s.threads task).maxChildren).kfree (s.threads task).children).modify task fun h =>
          { h with
            children := (s.kmalloc (s.threads task).number .children).1
            maxChildren := h.maxChildren * 2 } := by
  unfold Ownership.overflowChildren at done
  simp only at done
  split at done
  · split at done
    · cases done
    · next nonzero =>
      cases done
      exact .inr ⟨nonzero, rfl⟩
  · cases done
    exact .inl rfl

theorem childrenInit_used (done : s.childrenInit task = .ok s') :
    (∀ a, s.InUse a → s'.InUse a ∧ s'.words a = s.words a) ∧ s'.reserved = s.reserved ∧
      ((s'.threads task).children = (s.threads task).children ∨ ¬s.InUse (s'.threads task).children) := by
  obtain rfl | ⟨array, t, create, rfl⟩ := childrenInit_inv done
  · exact ⟨fun _ used => ⟨used, rfl⟩, rfl, .inl rfl⟩
  · obtain ⟨-, free, -, -, filled⟩ := arrayCreate_inv create
    refine ⟨fun a used => ⟨filled.inUse used, filled.words_of_inUse free used⟩, filled.reserved, .inr ?_⟩
    rw [modify_threads_self]
    exact free

theorem overflowChildren_used (done : s.overflowChildren task = .ok s') :
    (∀ a, s.InUse a → (a = (s.threads task).children ∨ s'.InUse a) ∧ s'.words a = s.words a) ∧
      s'.reserved = s.reserved := by
  obtain rfl | ⟨nonzero, rfl⟩ := overflowChildren_inv done
  · exact ⟨fun _ used => ⟨.inr used, rfl⟩, rfl⟩
  · refine ⟨fun a used => ⟨?_, ?_⟩, ?_⟩
    · have more : (s.kmalloc (s.threads task).number .children).2.InUse a := used.alloc _
      exact @inUse_kfree (Ownership.copyWords _ _ _ _) a _ more
    · apply update_of_ne
      rintro rfl
      exact not_inUse_kmalloc nonzero used
    · exact (Pool.reserved_releaseAll _ [_]).trans (reserved_kmalloc _ _)

theorem childrenInit_threads {q : Nat} (ne : q ≠ task) (done : s.childrenInit task = .ok s') :
    s'.threads q = s.threads q := by
  obtain rfl | ⟨array, t, create, rfl⟩ := childrenInit_inv done
  · rfl
  · obtain ⟨-, -, -, -, filled⟩ := arrayCreate_inv create
    rw [modify_threads_of_ne _ ne, filled.threads]

theorem overflowChildren_threads {q : Nat} (ne : q ≠ task) (done : s.overflowChildren task = .ok s') :
    s'.threads q = s.threads q := by
  obtain rfl | ⟨-, rfl⟩ := overflowChildren_inv done
  · rfl
  · exact modify_threads_of_ne _ ne

theorem pushChild_last {c : Nat} (push : s.pushChild task c = .ok s') : s'.lastChild task = .ok c := by
  obtain ⟨array, rfl⟩ := pushChild_inv push
  rw [lastChild_eq_ok]
  unfold child
  rw [modify_threads_self]
  refine ⟨Nat.succ_ne_zero _, array, ?_⟩
  show (s.store (s.threads task).children (s.threads task).nChildren c).words (s.threads task).children
    ((s.threads task).nChildren + 1 - 1) = c
  rw [Nat.add_sub_cancel, store_words_self, if_pos rfl]

/-- The slot for the thread `t`: the old children array is the only address that may be given back, and
    the words of the blocks are the same, but for the slot. -/
theorem link_used {t : Nat} {s₁ s2 : Ownership} (first : s.childrenInit task = .ok s')
    (overflow : s'.overflowChildren task = .ok s₁) (push : s₁.pushChild task t = .ok s2) :
    (∀ a, s.InUse a → a = (s.threads task).children ∨ s2.InUse a) ∧
      (∀ a, s.InUse a → ∀ i, s2.words a i = s.words a i ∨ s2.words a i = t) ∧
      s2.reserved = s.reserved := by
  obtain ⟨used, reserved, array⟩ := childrenInit_used first
  obtain ⟨used', reserved'⟩ := overflowChildren_used overflow
  obtain ⟨-, rfl⟩ := pushChild_inv push
  refine ⟨fun a held => ?_, fun a held i => ?_, reserved'.trans reserved⟩
  · cases (used' a (used a held).1).1 with
    | inl same =>
      -- a new array was not in use before
      rw [same] at held ⊢
      exact .inl (array.resolve_right fun free => free held)
    | inr held => exact .inr held
  · have same : s₁.words a = s.words a := ((used' a (used a held).1).2).trans (used a held).2
    by_cases eq : a = (s₁.threads task).children
    · subst eq
      show (s₁.store _ _ t).words _ i = _ ∨ (s₁.store _ _ t).words _ i = t
      rw [store_words_self, same]
      split
      · exact .inr rfl
      · exact .inl rfl
    · exact .inl (by
        show (s₁.store _ _ t).words a i = _
        rw [store_words_of_ne _ _ eq, same])

/-! ## The areas of the child -/

/-- What `process_create` leaves of the blocks of `s`, and its three areas, which were not in use in the
    memory `before` them. -/
structure Traced (s s' before : Ownership) (t number x : Nat) (areas : List Nat) : Prop where
  count : areas.length = 3
  nodup : areas.Nodup
  fresh : ∀ a ∈ areas, a ≠ 0 ∧ ¬before.InUse a
  held : ∀ b, b ∈ s'.held ↔ b ∈ before.held ∨ ∃ a ∈ areas, b = ⟨a, number, .area⟩
  used : ∀ a, s.InUse a → a = x ∨ before.InUse a
  words : ∀ a, s.InUse a → ∀ i, s'.words a i = s.words a i ∨ before.InUse (s'.words a i)
  children : (s'.threads t).children = 0
  context : (s'.threads t).context = 0 ∨ (s'.threads t).context = x ∨ before.InUse (s'.threads t).context

theorem createPages_used (number : Nat) (ne : current ≠ pages.addr) (alloc : s.allocKstack pages = .ok s')
    (ready : s'' = withContext (withPages s' pages current number) pages.addr number) :
    (∀ a, s.InUse a → s''.InUse a) ∧ s''.words = s.words ∧ s''.threads current = s.threads current ∧
      pages.addr ∈ s''.reserved ∧
      ((s''.threads pages.addr).context = 0 ∨ s''.InUse (s''.threads pages.addr).context) := by
  obtain ⟨-, -, rfl⟩ := allocKstack_inv alloc
  subst ready
  unfold withContext withPages
  refine ⟨fun a used => ?_, rfl, ?_, ?_, ?_⟩
  · apply Pool.InUse.alloc
    exact used.imp_right (mem_cons_of_mem _)
  · rw [modify_threads_of_ne _ ne, threads_kmalloc, modify_threads_of_ne _ ne]
    exact update_of_ne ne ..
  · show pages.addr ∈ (Ownership.kmalloc _ _ _).2.reserved
    rw [reserved_kmalloc]
    exact mem_cons_self ..
  · rw [modify_threads_self]
    by_cases zero : ((Ownership.modify { s with
        toPool := s.toPool.reserve pages.addr
        threads := update s.threads pages.addr pages.stale } pages.addr fun t =>
          { t with number, parent := current }).kmalloc number .context).1 = 0
    · exact .inl zero
    · exact .inr (holds_kmalloc zero).inUse

/-- The thread that `process_create` has set up has no children, and is the last child of another one. -/
theorem processCreate_traced (done : s.processCreate pages current number = .ok s') :
    pages.addr ≠ 0 ∧ (s'.threads pages.addr).nChildren = 0 ∧ (current ≠ pages.addr →
      s'.lastChild current = .ok pages.addr ∧
        ∃ before areas, Traced s s' before pages.addr number (s.threads current).children areas) := by
  unfold Ownership.processCreate at done
  obtain ⟨s1, alloc, done⟩ := bind_eq_ok.mp done
  obtain ⟨s5, first, done⟩ := bind_eq_ok.mp done
  obtain ⟨s6, overflow, done⟩ := bind_eq_ok.mp done
  obtain ⟨s7, push, done⟩ := bind_eq_ok.mp done
  obtain ⟨⟨mapList, s9⟩, areas, done⟩ := bind_eq_ok.mp done
  cases done
  obtain ⟨count, nodup, fresh, ⟨pool, rfl, -⟩, held⟩ := areasCreate_inv areas
  refine ⟨(allocKstack_inv alloc).1, by simp [Ownership.modify], fun ne => ?_⟩
  obtain ⟨used4, words4, current4, reserved4, context4⟩ := createPages_used number ne alloc rfl
  change (withContext (withPages s1 pages current number) pages.addr number).childrenInit current = _ at first
  generalize withContext (withPages s1 pages current number) pages.addr number = s4 at *
  obtain ⟨used7, words7, reserved7⟩ := link_used first overflow push
  rw [current4] at used7
  have thread7 : s7.threads pages.addr = s4.threads pages.addr := by
    rw [(pushChild_inv push).2, modify_threads_of_ne _ ne.symm]
    exact (overflowChildren_threads ne.symm overflow).trans (childrenInit_threads ne.symm first)
  constructor
  · have last := pushChild_last push
    rw [lastChild_eq_ok] at last ⊢
    simpa [Ownership.modify, child, update_of_ne ne] using last
  · refine ⟨_, mapList, count, nodup, fun a mem => ⟨(fresh a mem).1, (fresh a mem).2.1⟩, held, ?_, ?_, ?_, ?_⟩
    · exact fun a used => used7 a (used4 a used)
    · intro a used i
      have same := words7 a (used4 a used) i
      rw [words4] at same
      refine same.imp_right fun eq => .inr ?_
      show s7.words a i ∈ s7.reserved
      rw [eq, reserved7]
      exact reserved4
    · simp [Ownership.modify]
    · have context : ((Ownership.modify { withFields s7 pages.addr with toPool := pool } pages.addr fun t =>
          { t with mapList }).threads pages.addr).context = (s4.threads pages.addr).context := by
        simp [Ownership.modify, withFields, thread7]
      have kept : ∀ c, c = (s4.threads pages.addr).context →
          c = 0 ∨ c = (s.threads current).children ∨ s7.InUse c := by
        rintro c rfl
        exact context4.imp_right (used7 _)
      exact kept _ context

theorem exists_other {l : List Nat} (nodup : l.Nodup) (count : l.length = 3) (u v : Nat) :
    ∃ a ∈ l, a ≠ u ∧ a ≠ v := by
  by_contra none
  have among : l ⊆ [u, v] := by
    intro a mem
    by_contra other
    simp only [mem_cons, not_mem_nil, or_false, not_or] at other
    exact none ⟨a, mem, other⟩
  have := (subperm_of_subset nodup among).length_le
  simp [count] at this

/-- An area that is left when the child of `__exec` has been freed: it was not in use before, and no block
    with another use lies there. -/
theorem execCreate_leak {argv c : Nat} {args : Argv}
    (vector : s.InUse argv) (buffers : ∀ i < maxArgs, s.words argv i = 0 ∨ s.InUse (s.words argv i))
    (create : s.execCreate pages parent number argv args = .ok (c, s'))
    (free : s'.processFree c = .ok s'') :
    ∃ a, ¬s.InUse a ∧ ⟨a, number, .area⟩ ∈ s''.held ∧ ∀ b ∈ s''.held, b.addr = a → b.label.use = .area := by
  unfold Ownership.execCreate at create
  obtain ⟨t, made, done⟩ := bind_eq_ok.mp create
  obtain ⟨c', last, done⟩ := bind_eq_ok.mp done
  cases done
  obtain ⟨addr, childless, made⟩ := processCreate_traced made
  have ne : parent ≠ pages.addr := by
    rintro rfl
    exact (lastChild_eq_ok.mp last).1 childless
  obtain ⟨last', before, areas, traced⟩ := made ne
  cases last'.symm.trans last
  -- neither the file table that was in the pages nor the old children array
  obtain ⟨a, mem, nofile, noarray⟩ := exists_other traced.nodup traced.count
    (t.threads pages.addr).fds (s.threads parent).children
  obtain ⟨nonzero, unused⟩ := traced.fresh a mem
  have other : ∀ b, b = 0 ∨ b = (s.threads parent).children ∨ before.InUse b → a ≠ b := by
    rintro b (zero | array | used) rfl
    · exact nonzero zero
    · exact noarray array
    · exact unused used
  have kept : a ∉ freedBlocks (t.modify pages.addr fun h => { h with argv }) pages.addr := by
    unfold freedBlocks
    simp only [modify_threads_self, traced.children, if_true, append_nil, mem_append,
      mem_cons, not_mem_nil, or_false, mem_map, mem_range, not_or, not_exists, not_and]
    refine ⟨⟨⟨other _ traced.context, nofile⟩, fun i below => ?_⟩, other _ (.inr (traced.used argv vector))⟩
    refine (other (t.words argv i) ?_).symm
    cases traced.words argv vector i with
    | inl same =>
      rw [same]
      unfold Ownership.setArgs
      simp only [update_self, below, dif_pos]
      split
      · exact .inl rfl
      · exact (buffers i below).imp_right (traced.used _)
    | inr used => exact .inr (.inr used)
  refine ⟨a, fun used => other a (.inr (traced.used a used)) rfl, ?_, ?_⟩ <;>
    rw [(processFree_inv free addr).2.2.2]
  · exact Pool.mem_releaseAll.mpr ⟨(traced.held _).mpr (.inr ⟨a, mem, rfl⟩), fun among => absurd among kept⟩
  · intro b held at_a
    cases (traced.held b).mp (Pool.mem_releaseAll.mp held).1 with
    | inl held => exact absurd (at_a ▸ Pool.inUse_of_mem held) unused
    | inr area =>
      obtain ⟨_, -, rfl⟩ := area
      rfl

/-! ## The result -/

/-- A block of the children array of `parent`. -/
def ArrayBlock (s : Ownership) (parent a : Nat) : Prop :=
  Holds s (s.threads parent).number a .children ∨ Holds s (s.threads parent).number a .placeholder

/-- After the call the memory is what it was, but for the children array of the parent. -/
structure NoTrace (parent : Nat) (k k' : ExecState) : Prop where
  blocks : ∀ a, ¬ArrayBlock k.memory parent a → ¬ArrayBlock k'.memory parent a →
    (a ∈ k'.memory.held.map PoolBlock.addr ↔ a ∈ k.memory.held.map PoolBlock.addr)
  others : ∀ b ∈ k.memory.held, b.label.owner ≠ (k.memory.threads parent).number → b ∈ k'.memory.held
  kstacks : ∀ a, a ∈ k'.memory.reserved ↔ a ∈ k.memory.reserved
  size : k'.memory.size = k.memory.size
  taskQueue : k'.memory.taskQueue = k.memory.taskQueue
  children : (List.range (k'.memory.threads parent).nChildren).map (child k'.memory parent) =
    (List.range (k.memory.threads parent).nChildren).map (child k.memory parent)
  frames : k'.vm.frames.Perm k.vm.frames
  tables : k'.vm.pages.Perm k.vm.pages
  mapping : ∀ va, k'.vm.entry va = k.vm.entry va

/-- A block that is new and is no children array is a trace. -/
theorem NoTrace.old {k' : ExecState} (traceless : NoTrace parent k k')
    {b : PoolBlock BlockLabel} (mem : b ∈ k'.memory.held) (free : ¬k.memory.InUse b.addr)
    (use : ∀ c ∈ k'.memory.held, c.addr = b.addr → c.label.use ≠ .children ∧ c.label.use ≠ .placeholder) :
    False := by
  have old : ¬ArrayBlock k.memory parent b.addr := fun block =>
    free (block.elim Holds.inUse Holds.inUse)
  have new : ¬ArrayBlock k'.memory parent b.addr := by
    rintro (block | block)
    · exact (use _ block rfl).1 rfl
    · exact (use _ block rfl).2 rfl
  exact free (.inl ((traceless.blocks b.addr old new).mp (mem_map_of_mem mem)))

/-- A command that cannot be parsed leaves the argument buffers. -/
theorem unparsed_traceless_iff {argv : Nat} {m : Ownership} (array : (k.memory.threads parent).nChildren = 0 ∨
      k.memory.InUse (k.memory.threads parent).children)
    (create : k.memory.begin.2.argvCreate k.memory.begun = .ok (argv, m)) :
    NoTrace parent k { k with memory := m.kfree argv } ↔ ∀ i < maxArgs, m.words argv i = 0 := by
  obtain ⟨-, free, -, -, filled⟩ := arrayCreate_inv create
  obtain ⟨mem, fresh⟩ := mem_arrayCreate create
  have released : ∀ b, b ∈ (m.kfree argv).held ↔ b ∈ m.held ∧ (b.addr ∈ [argv] → b.addr = 0) :=
    fun b => @Pool.mem_releaseAll _ m.toPool [argv] b
  constructor
  · intro traceless i below
    by_contra some
    obtain ⟨unused, other⟩ := fresh i below some
    refine traceless.old (b := ⟨m.words argv i, k.memory.begun, .argument⟩) ?_ unused ?_
    · refine (released _).mpr ⟨(mem _).mpr (.inr (.inr ⟨i, below, some, rfl⟩)), fun at_argv => ?_⟩
      exact absurd (mem_singleton.mp at_argv) other
    · intro c held same
      obtain old | rfl | ⟨j, -, -, rfl⟩ := (mem c).mp ((released c).mp held).1
      · have used : k.memory.InUse c.addr := Pool.inUse_of_mem old
        rw [same] at used
        exact absurd used unused
      · simp
      · simp
  · intro none
    have held : ∀ b, b ∈ (m.kfree argv).held ↔ b ∈ k.memory.held := by
      intro b
      rw [released, mem]
      constructor
      · rintro ⟨old | rfl | ⟨i, below, some, -⟩, other⟩
        · exact old
        · exact absurd (other (mem_singleton_self argv)) (arrayCreate_inv create).1
        · exact absurd (none i below) some
      · intro old
        refine ⟨.inl old, fun at_argv => absurd ?_ free⟩
        exact mem_singleton.mp at_argv ▸ Pool.inUse_of_mem old
    constructor
    · intro a _ _
      simp only [mem_map, held]
    · exact fun b old _ => (held b).mpr old
    · intro a
      rw [show (m.kfree argv).reserved = k.memory.reserved from
        (Pool.reserved_releaseAll _ [argv]).trans filled.reserved]
    · exact filled.size
    · exact filled.taskQueue
    · show (range (m.threads parent).nChildren).map (fun i => m.words (m.threads parent).children i) =
        (range (k.memory.threads parent).nChildren).map
          (fun i => k.memory.words (k.memory.threads parent).children i)
      rw [filled.threads]
      show (range (k.memory.threads parent).nChildren).map
        (fun i => m.words (k.memory.threads parent).children i) = _
      cases array with
      | inl zero => simp [zero]
      | inr used => rw [filled.words_of_inUse free used]; rfl
    · exact .refl _
    · exact .refl _
    · exact fun _ => rfl

theorem kmalloc_null_iff (s : Ownership) (owner : Nat) (use : BlockUse) :
    (s.kmalloc owner use).2.supply = s.supply.tail ∧
      ((s.kmalloc owner use).1 = 0 ↔ ∀ a ∈ s.supply.head?, a = 0 ∨ s.InUse a) := by
  unfold Ownership.kmalloc
  obtain ⟨done, failed⟩ | ⟨a, here, nonzero, free, done⟩ := s.alloc_cases ⟨owner, use⟩ <;> rw [done]
  · exact ⟨rfl, iff_of_true rfl failed⟩
  · exact ⟨rfl, iff_of_false nonzero fun all => (all a here).elim nonzero free⟩

/-- The slots of an array are all `NULL` when the answers of `kmalloc` are. -/
theorem fillArray_null_iff (s : Ownership) (owner : Nat) (use : BlockUse) (array n : Nat) :
    (s.fillArray owner use array n).supply = s.supply.drop n ∧
      ((∀ i < n, (s.fillArray owner use array n).words array i = 0) ↔ ∀ a ∈ s.supply.take n, a = 0 ∨ s.InUse a) := by
  induction n with
  | zero => exact ⟨rfl, by simp⟩
  | succ n ih =>
    have mem := (mem_fillArray s owner use array n).1
    have reserved := (filled_fillArray s owner use array n).reserved
    rw [fillArray_succ]
    generalize s.fillArray owner use array n = t at ih mem reserved ⊢
    obtain ⟨supply, null⟩ := kmalloc_null_iff t owner use
    refine ⟨supply.trans (by rw [ih.1, tail_drop]), ?_⟩
    have first : (∀ i < n, ((t.kmalloc owner use).2.store array n (t.kmalloc owner use).1).words array i = 0) ↔
        ∀ i < n, t.words array i = 0 :=
      forall₂_congr fun i below => by rw [store_words_self, if_neg (Nat.ne_of_lt below), words_kmalloc]
    -- without blocks in the slots, the same blocks are in use as before
    have same (none : ∀ i < n, t.words array i = 0) (a : Nat) : t.InUse a ↔ s.InUse a := by
      have held (b : PoolBlock BlockLabel) : b ∈ t.held ↔ b ∈ s.held := by
        rw [mem, or_iff_left]
        rintro ⟨i, below, some, -⟩
        exact some (none i below)
      simp only [Pool.InUse, mem_map, held, reserved]
    rw [Nat.forall_lt_succ_right, store_words_self, if_pos rfl, take_add_one, forall_mem_append, ← ih.2, first]
    refine and_congr_right fun none => ?_
    simp only [null, ih.1, head?_drop, same none, Option.mem_def, Option.mem_toList]

/-- After the one for the vector, no call of `kmalloc` gives `__exec` a block. -/
def NoBuffers (s : Ownership) : Prop :=
  ∀ a ∈ s.supply.tail.take maxArgs, a = 0 ∨ s.InUse a ∨ a ∈ s.supply.head?

theorem argvCreate_null_iff {argv : Nat} {m : Ownership}
    (create : k.memory.begin.2.argvCreate k.memory.begun = .ok (argv, m)) :
    (∀ i < maxArgs, m.words argv i = 0) ↔ NoBuffers k.memory := by
  unfold Ownership.argvCreate Ownership.arrayCreate Ownership.kmalloc at create
  obtain ⟨done, -⟩ | ⟨a, here, nonzero, free, done⟩ := k.memory.begin.2.alloc_cases ⟨k.memory.begun, .argv⟩
  · rw [done] at create
    cases create
  · simp only [done, if_neg nonzero] at create
    cases create
    rw [(fillArray_null_iff ..).2]
    refine forall₂_congr fun x _ => ?_
    rw [show k.memory.supply.head? = some _ from here]
    unfold Pool.InUse Ownership.begin
    grind

/-- A failed `execute` leaves no trace exactly when the command cannot be parsed, without any buffer for an argument,
    and `kmalloc` has no block for these buffers.  The children array of the parent, if it has children, is a
    block, as it is in every valid memory. -/
theorem failed_execute_traceless_iff {k k' : ExecState} {fs : FileSystem} {old : Uncleared} {parent : Nat}
    {cmd : CString} {r : Int}
    (array : (k.memory.threads parent).nChildren = 0 ∨ k.memory.InUse (k.memory.threads parent).children)
    (done : k.doExecute fs old parent cmd = .ok (k', r)) (failed : r < 0) :
    NoTrace parent k k' ↔ NoBuffers k.memory ∧
      ∃ args argc, parseArg cmd old.before old.garbage (fun _ => none) = .ok (args, argc) ∧ argc < 0 := by
  unfold ExecState.doExecute at done
  simp only at done
  obtain ⟨⟨argv, m⟩, create, done⟩ := bind_eq_ok.mp done
  obtain ⟨⟨args, argc⟩, parse, done⟩ := bind_eq_ok.mp done
  have create := mapError_eq_ok.mp create
  have parse := mapError_eq_ok.mp parse
  -- without buffers, `parse_arg` has been given a vector of `NULL`s
  have empty (none : NoBuffers k.memory) : m.argvOf argv old.junk = fun _ => Option.none :=
    funext fun i => if_pos ((argvCreate_null_iff create).mpr none i i.isLt)
  simp only at done
  split at done
  · next unparsed =>
    cases done
    rw [unparsed_traceless_iff array create, argvCreate_null_iff create]
    exact ⟨fun none => ⟨none, args, _, empty none ▸ parse, unparsed⟩, And.left⟩
  · next parsed =>
    obtain ⟨⟨c, m1⟩, child, done⟩ := bind_eq_ok.mp done
    have child := mapError_eq_ok.mp child
    simp only at done
    split at done
    · cases done
    · obtain ⟨⟨vm, errno⟩, load, done⟩ := bind_eq_ok.mp done
      simp only at done
      split at done
      · obtain ⟨m2, free, done⟩ := bind_eq_ok.mp done
        have free := mapError_eq_ok.mp free
        cases done
        refine iff_of_false (fun traceless => ?_) ?_
        · obtain ⟨-, -, held, slots, filled⟩ := arrayCreate_inv create
          obtain ⟨a, unused, area, only⟩ := execCreate_leak held.inUse
            (fun i below => (slots.held i (Nat.zero_le i) below).imp_right Holds.inUse) child free
          refine traceless.old (b := ⟨a, k.memory.begun, .area⟩) area (fun used => unused (filled.inUse used)) ?_
          intro b mem same
          rw [only b mem same]
          exact ⟨by decide, by decide⟩
        · rintro ⟨none, args', argc', parse', negative⟩
          rw [empty none] at parse
          cases parse.symm.trans parse'
          exact parsed negative
      · obtain ⟨m2, -, done⟩ := bind_eq_ok.mp done
        cases done
        omega

/-- `init` without user memory, next to a process with a file table at 50. -/
def besideFiles (supply : List Nat) : ExecState where
  memory := { bootMemory with held := [⟨50, 1, .files⟩], supply, begun := 2 }
  vm :=
    { directory := fun _ => 0
      table := fun _ _ => 0
      count := fun _ => 0
      pages := []
      frames := []
      mem := fun _ _ => 0
      blocks := []
      vms := fun _ => ⟨[], 1, 0, 0, 0⟩
      init := 1 }

/-- The pages at 2 were those of a process with its file table at 50. -/
def stalePages : Uncleared where
  pages := ⟨2, { emptyHoldings with fds := 50 }⟩
  junk := fun _ _ => 0
  before := 0
  garbage := [0]
  header := fun _ => 0

def noFiles : FileSystem := ⟨0, 0, 0, fun _ => ⟨fun _ => 0, .regular, 0⟩, fun _ => ⟨0, fun _ => 0⟩, fun _ _ => 0⟩

/-- The empty command, when there is only room for the vector. -/
theorem failed_execute_traceless_empty : ∃ k',
    (besideFiles [100]).doExecute noFiles stalePages 1 (.lit [] (by decide)) = .ok (k', -1) ∧
      NoTrace 1 (besideFiles [100]) k' := by
  have run : okAnd ((besideFiles [100]).doExecute noFiles stalePages 1 (.lit [] (by decide)))
      (fun x => x.2 = -1) = true := by
    decide +kernel
  obtain ⟨⟨k', r⟩, done, negative⟩ := okAnd_iff.mp run
  obtain rfl : r = -1 := of_decide_eq_true negative
  refine ⟨k', done, (failed_execute_traceless_iff (.inl rfl) done (by decide)).mpr ⟨?_, ?_⟩⟩
  · exact forall_mem_nil _
  · have refused : okAnd (parseArg (.lit [] (by decide)) 0 [0] fun _ => none) (fun x => x.2 < 0) = true := by
      decide +kernel
    obtain ⟨⟨args, argc⟩, parse, negative⟩ := okAnd_iff.mp refused
    exact ⟨args, argc, parse, of_decide_eq_true negative⟩

/-- There is no file of the name `a`.  The areas at 200, 201 and 202 stay allocated, and the file table
    of the other process is freed. -/
theorem failed_execute_frees_other_files : ∃ k',
    (besideFiles bootMemory.supply).doExecute noFiles stalePages 1 (.lit [0x61] (by decide)) = .ok (k', -1) ∧
      (∀ a ∈ [200, 201, 202], ⟨a, 2, .area⟩ ∈ k'.memory.held) ∧ ⟨50, 1, .files⟩ ∉ k'.memory.held ∧
      ¬NoTrace 1 (besideFiles bootMemory.supply) k' := by
  have run : okAnd ((besideFiles bootMemory.supply).doExecute noFiles stalePages 1 (.lit [0x61] (by decide)))
      (fun x => x.2 = -1 ∧ (∀ a ∈ [200, 201, 202], ⟨a, 2, .area⟩ ∈ x.1.memory.held) ∧
        ⟨50, 1, .files⟩ ∉ x.1.memory.held) = true := by
    decide +kernel
  obtain ⟨⟨k', r⟩, done, found⟩ := okAnd_iff.mp run
  obtain ⟨negative, areas, freed⟩ := of_decide_eq_true found
  obtain rfl : r = -1 := negative
  refine ⟨k', done, areas, freed, fun traceless => ?_⟩
  exact freed (traceless.others ⟨50, 1, .files⟩ (List.mem_singleton_self _) (by decide))

end Ownership

end Illinix.Verified.Process
