import Illinix.Kernel.Ownership
import Illinix.Lib.Except

/-! # The blocks of processes

What each allocation of `Kernel/Ownership` does to the blocks, the words and the threads, and the list
of the addresses that `process_free` passes to `kfree`. -/

namespace Illinix.Verified.Process

open Kernel Lib List Function

namespace Ownership

variable {s s' : Ownership} {a array n owner p : Nat} {use : BlockUse}

/-- The block at `a` was allocated for the process with the number `n`. -/
def Holds (s : Ownership) (n a : Nat) (use : BlockUse) : Prop :=
  (⟨a, ⟨n, use⟩⟩ : PoolBlock BlockLabel) ∈ s.held

/-- The thread in a slot of the children array. -/
def child (s : Ownership) (q i : Nat) : Nat := s.words (s.threads q).children i

/-! ## Fields -/

@[simp] theorem threads_kmalloc (owner : Nat) (use : BlockUse) :
    (s.kmalloc owner use).2.threads = s.threads := rfl

@[simp] theorem words_kmalloc (owner : Nat) (use : BlockUse) :
    (s.kmalloc owner use).2.words = s.words := rfl

@[simp] theorem reserved_kmalloc (owner : Nat) (use : BlockUse) :
    (s.kmalloc owner use).2.reserved = s.reserved := Pool.reserved_alloc ..

theorem mem_kmalloc {b : PoolBlock BlockLabel} : b ∈ (s.kmalloc owner use).2.held ↔
      b ∈ s.held ∨ (s.kmalloc owner use).1 ≠ 0 ∧ b = ⟨(s.kmalloc owner use).1, owner, use⟩ :=
  Pool.mem_alloc

theorem not_inUse_kmalloc (nonzero : (s.kmalloc owner use).1 ≠ 0) : ¬s.InUse (s.kmalloc owner use).1 :=
  Pool.not_inUse_alloc nonzero

theorem holds_kmalloc (nonzero : (s.kmalloc owner use).1 ≠ 0) :
    Holds (s.kmalloc owner use).2 owner (s.kmalloc owner use).1 use :=
  mem_kmalloc.mpr (.inr ⟨nonzero, rfl⟩)

theorem Holds.inUse (holds : Holds s n a use) : s.InUse a := Pool.inUse_of_mem holds

/-- A block belongs to one process, and has one use. -/
theorem Holds.unique {m : Nat} {use' : BlockUse} (pool : s.toPool.Ok) (first : Holds s n a use)
    (second : Holds s m a use') : n = m ∧ use = use' := by
  have same := pool.unique first second rfl
  injection same with _ label
  injection label with owner use
  exact ⟨owner, use⟩

@[simp] theorem modify_threads_self (s : Ownership) (p : Nat) (f : Holdings → Holdings) :
    (s.modify p f).threads p = f (s.threads p) := update_self ..

theorem modify_threads_of_ne {q : Nat} (f : Holdings → Holdings) (ne : q ≠ p) :
    (s.modify p f).threads q = s.threads q := update_of_ne ne ..

theorem modify_field {α : Type} (g : Holdings → α) {f : Holdings → Holdings}
    (stable : g (f (s.threads p)) = g (s.threads p)) (q : Nat) :
    g ((s.modify p f).threads q) = g (s.threads q) := by
  by_cases eq : q = p
  · rw [eq, modify_threads_self, stable]
  · rw [modify_threads_of_ne f eq]

theorem store_words_of_ne (i w : Nat) (ne : a ≠ array) :
    (s.store array i w).words a = s.words a := update_of_ne ne ..

theorem store_words_self (s : Ownership) (array i w j : Nat) :
    (s.store array i w).words array j = if j = i then w else s.words array j := by
  unfold Ownership.store
  simp [update_apply]

/-! ## Arrays with a block in each slot -/

/-- The slots `lo .. hi - 1` are `NULL` or hold a block of their own. -/
structure Slots (s : Ownership) (n array lo hi : Nat) (use : BlockUse) : Prop where
  held : ∀ i, lo ≤ i → i < hi → s.words array i = 0 ∨ Holds s n (s.words array i) use
  once : ∀ i j, lo ≤ i → i < hi → lo ≤ j → j < hi → s.words array i ≠ 0 →
    s.words array i = s.words array j → i = j

theorem Slots.mono {lo hi : Nat} (slots : Slots s n array lo hi use)
    (words : s'.words array = s.words array) (held : ∀ a, Holds s n a use → Holds s' n a use) :
    Slots s' n array lo hi use := by
  constructor
  · intro i above below
    rw [words]
    exact (slots.held i above below).imp_right (held _)
  · rw [words]
    exact slots.once

/-- `s'` differs from `s` in the words at `array` and in new blocks. -/
structure Filled (s s' : Ownership) (array : Nat) : Prop where
  threads : s'.threads = s.threads
  begun : s'.begun = s.begun
  size : s'.size = s.size
  taskQueue : s'.taskQueue = s.taskQueue
  reserved : s'.reserved = s.reserved
  words : ∀ a ≠ array, s'.words a = s.words a
  held : ∀ b ∈ s.held, b ∈ s'.held

theorem fillArray_succ (s : Ownership) (owner : Nat) (use : BlockUse) (array n : Nat) :
    s.fillArray owner use array (n + 1) = (((s.fillArray owner use array n).kmalloc owner use).2.store array n
        ((s.fillArray owner use array n).kmalloc owner use).1) := by
  simp [Ownership.fillArray, range_succ]

theorem filled_fillArray (s : Ownership) (owner : Nat) (use : BlockUse) (array n : Nat) :
    Filled s (s.fillArray owner use array n) array := by
  induction n with
  | zero => exact ⟨rfl, rfl, rfl, rfl, rfl, fun _ _ => rfl, fun _ mem => mem⟩
  | succ n ih =>
    rw [fillArray_succ]
    refine ⟨ih.threads, ih.begun, ih.size, ih.taskQueue, ?_, ?_, ?_⟩
    · exact (reserved_kmalloc owner use).trans ih.reserved
    · intro a ne
      rw [store_words_of_ne _ _ ne, words_kmalloc, ih.words a ne]
    · exact fun b mem => mem_kmalloc.mpr (.inl (ih.held b mem))

theorem slots_fillArray (s : Ownership) (owner : Nat) (use : BlockUse) (array n : Nat) :
    Slots (s.fillArray owner use array n) owner array 0 n use := by
  induction n with
  | zero => exact ⟨fun i _ below => absurd below (by omega), fun i _ _ below => absurd below (by omega)⟩
  | succ n ih =>
    rw [fillArray_succ]
    generalize s.fillArray owner use array n = t at ih ⊢
    -- the earlier blocks are in use, so that the new one is none of them
    have fresh : ∀ j < n, t.words array j ≠ 0 → t.words array j ≠ (t.kmalloc owner use).1 := by
      intro j below nonzero same
      have used := ((ih.held j (by omega) below).resolve_left nonzero).inUse
      rw [same] at used nonzero
      exact not_inUse_kmalloc nonzero used
    constructor
    · intro i _ below
      rw [store_words_self, words_kmalloc]
      split
      · by_cases zero : (t.kmalloc owner use).1 = 0
        · exact .inl zero
        · exact .inr (holds_kmalloc zero)
      · next ne =>
        exact (ih.held i (by omega) (by omega)).imp_right fun held => mem_kmalloc.mpr (.inl held)
    · intro i j _ hi _ hj nonzero same
      simp only [store_words_self, words_kmalloc] at nonzero same
      split_ifs at nonzero same with hi' hj' hj'
      · omega
      · exact absurd same.symm (fresh j (by omega) (same ▸ nonzero))
      · exact absurd same (fresh i (by omega) nonzero)
      · exact ih.once i j (by omega) (by omega) (by omega) (by omega) nonzero same

theorem Filled.inUse (filled : Filled s s' array) (used : s.InUse a) : s'.InUse a := by
  cases used with
  | inl mem =>
    obtain ⟨b, held, rfl⟩ := mem_map.mp mem
    exact Pool.inUse_of_mem (filled.held b held)
  | inr mem => exact .inr (filled.reserved ▸ mem)

theorem mem_fillArray (s : Ownership) (owner : Nat) (use : BlockUse) (array n : Nat) :
    (∀ b, b ∈ (s.fillArray owner use array n).held ↔ b ∈ s.held ∨
      ∃ i < n, (s.fillArray owner use array n).words array i ≠ 0 ∧
        b = ⟨(s.fillArray owner use array n).words array i, owner, use⟩) ∧
    ∀ i < n, (s.fillArray owner use array n).words array i ≠ 0 →
      ¬s.InUse ((s.fillArray owner use array n).words array i) := by
  induction n with
  | zero => exact ⟨fun b => ⟨.inl, fun held => held.elim id fun ⟨i, below, _⟩ => by omega⟩,
      fun i below => by omega⟩
  | succ n ih =>
    have filled := filled_fillArray s owner use array n
    rw [fillArray_succ]
    generalize s.fillArray owner use array n = t at ih filled ⊢
    have last : ((t.kmalloc owner use).2.store array n (t.kmalloc owner use).1).words array n =
        (t.kmalloc owner use).1 := by
      rw [store_words_self, if_pos rfl]
    have before : ∀ i, i < n →
        ((t.kmalloc owner use).2.store array n (t.kmalloc owner use).1).words array i = t.words array i := by
      intro i below
      rw [store_words_self, if_neg (by omega)]
      rfl
    constructor
    · intro b
      show b ∈ (t.kmalloc owner use).2.held ↔ _
      rw [mem_kmalloc, ih.1]
      constructor
      · rintro ((old | ⟨i, below, some, rfl⟩) | ⟨some, rfl⟩)
        · exact .inl old
        · exact .inr ⟨i, by omega, by rwa [before i below], by rw [before i below]⟩
        · exact .inr ⟨n, by omega, by rwa [last], by rw [last]⟩
      · rintro (old | ⟨i, below, some, rfl⟩)
        · exact .inl (.inl old)
        · by_cases eq : i = n
          · subst eq
            rw [last] at some ⊢
            exact .inr ⟨some, rfl⟩
          · have below : i < n := by omega
            rw [before i below] at some ⊢
            exact .inl (.inr ⟨i, below, some, rfl⟩)
    · intro i below some
      by_cases eq : i = n
      · subst eq
        rw [last] at some ⊢
        exact fun used => not_inUse_kmalloc some (filled.inUse used)
      · have below : i < n := by omega
        rw [before i below] at some ⊢
        exact ih.2 i below some

theorem arrayCreate_inv {slotUse : BlockUse} (done : s.arrayCreate owner use slotUse n = .ok (array, s')) :
    array ≠ 0 ∧ ¬s.InUse array ∧ Holds s' owner array use ∧ Slots s' owner array 0 n slotUse ∧
      Filled s s' array := by
  unfold Ownership.arrayCreate at done
  simp only at done
  split at done
  · cases done
  · next nonzero =>
    cases done
    have filled := filled_fillArray (s.kmalloc owner use).2 owner slotUse (s.kmalloc owner use).1 n
    refine ⟨nonzero, not_inUse_kmalloc nonzero, ?_, slots_fillArray .., ?_⟩
    · exact filled.held _ (holds_kmalloc nonzero)
    · refine ⟨filled.threads, filled.begun, filled.size, filled.taskQueue, ?_, filled.words, ?_⟩
      · exact filled.reserved.trans (reserved_kmalloc owner use)
      · exact fun b mem => filled.held b (mem_kmalloc.mpr (.inl mem))

/-- The blocks of a new array: itself and those in its slots, none of which was in use. -/
theorem mem_arrayCreate {slotUse : BlockUse} (done : s.arrayCreate owner use slotUse n = .ok (array, s')) :
    (∀ b, b ∈ s'.held ↔ b ∈ s.held ∨ b = ⟨array, owner, use⟩ ∨
      ∃ i < n, s'.words array i ≠ 0 ∧ b = ⟨s'.words array i, owner, slotUse⟩) ∧
    ∀ i < n, s'.words array i ≠ 0 → ¬s.InUse (s'.words array i) ∧ s'.words array i ≠ array := by
  unfold Ownership.arrayCreate at done
  simp only at done
  split at done
  · cases done
  · next nonzero =>
    cases done
    obtain ⟨mem, fresh⟩ := mem_fillArray (s.kmalloc owner use).2 owner slotUse (s.kmalloc owner use).1 n
    constructor
    · intro b
      rw [mem, mem_kmalloc]
      simp only [nonzero, ne_eq, not_false_eq_true, true_and, or_assoc]
    · intro i below some
      have free := fresh i below some
      refine ⟨fun used => free (used.alloc _), fun same => free ?_⟩
      rw [same]
      exact (holds_kmalloc nonzero).inUse

/-! ## Areas -/

/-- New areas: they are distinct, and none was in use. -/
theorem areasCreate_inv {areas : List Nat} (done : s.areasCreate owner n = .ok (areas, s')) :
    areas.length = n ∧ areas.Nodup ∧ (∀ a ∈ areas, a ≠ 0 ∧ ¬s.InUse a ∧ Holds s' owner a .area) ∧
      (∃ pool, s' = { s with toPool := pool } ∧ pool.reserved = s.reserved) ∧
      ∀ b, b ∈ s'.held ↔ b ∈ s.held ∨ ∃ a ∈ areas, b = ⟨a, owner, .area⟩ := by
  induction n generalizing s areas with
  | zero =>
    cases done
    simp only [length_nil, nodup_nil, not_mem_nil, false_and, exists_false, or_false,
      implies_true, and_true, true_and, false_implies]
    exact ⟨_, rfl, rfl⟩
  | succ n ih =>
    rw [Ownership.areasCreate] at done
    simp only at done
    split at done
    · cases done
    · next nonzero =>
      obtain ⟨⟨rest, t⟩, later, done⟩ := bind_eq_ok.mp done
      cases done
      obtain ⟨length, nodup, fresh, ⟨pool, rfl, reserved⟩, mem⟩ := ih later
      have old : ∀ a, s.InUse a → (s.kmalloc owner .area).2.InUse a := fun a used => used.alloc _
      have used := (holds_kmalloc nonzero).inUse
      refine ⟨by simp [length], ?_, ?_, ⟨pool, rfl, ?_⟩, ?_⟩
      · exact nodup_cons.mpr ⟨fun among => (fresh _ among).2.1 used, nodup⟩
      · intro a among
        cases mem_cons.mp among with
        | inl eq =>
          subst eq
          exact ⟨nonzero, not_inUse_kmalloc nonzero, (mem _).mpr (.inl (holds_kmalloc nonzero))⟩
        | inr among =>
          obtain ⟨nonzero, free, held⟩ := fresh a among
          exact ⟨nonzero, fun used => free (old a used), held⟩
      · exact reserved.trans (reserved_kmalloc owner .area)
      · intro b
        rw [mem, mem_kmalloc]
        simp [nonzero, or_assoc]

/-! ## What `process_free` gives back -/

theorem foldl_kfree (s : Ownership) (l : List Nat) :
    l.foldl Ownership.kfree s = { s with toPool := s.toPool.releaseAll l } := by
  induction l generalizing s with
  | nil => rfl
  | cons a l ih => exact ih _

theorem kfreeArray_eq (s : Ownership) (array n : Nat) :
    s.kfreeArray array n = { s with toPool := s.toPool.releaseAll ((List.range n).map (s.words array)) } := by
  induction n with
  | zero => rfl
  | succ n ih =>
    have last : s.kfreeArray array (n + 1) =
        (s.kfreeArray array n).kfree ((s.kfreeArray array n).words array n) := by
      simp [Ownership.kfreeArray, range_succ]
    rw [last, ih, range_succ, map_append, Pool.releaseAll_append]
    rfl

/-- The addresses that `process_free` passes to `kfree`, in this order. -/
def freedBlocks (s : Ownership) (p : Nat) : List Nat :=
  let t := s.threads p
  [t.context, t.fds] ++ (List.range maxArgs).map (s.words t.argv) ++ [t.argv] ++
    if t.children = 0 then [] else (List.range t.maxChildren).map (s.words t.children) ++ [t.children]

theorem freeBlocks_eq (argv : (s.threads p).argv ≠ 0) :
    s.freeBlocks p = .ok { s with toPool := s.toPool.releaseAll (freedBlocks s p) } := by
  unfold Ownership.freeBlocks
  simp only [argv, if_false, freedBlocks, kfreeArray_eq]
  split
  · rfl
  · simp only [Pool.releaseAll_append]
    rfl

theorem processFree_inv (done : s.processFree p = .ok s') (nonzero : p ≠ 0) :
    (s.threads p).argv ≠ 0 ∧ (s.threads (s.threads p).parent).nChildren ≠ 0 ∧
      (s.threads (s.threads p).parent).children ≠ 0 ∧
      s' = (({ s with
        toPool := (s.toPool.releaseAll (freedBlocks s p)).unreserve p
        size := killPid s.size
        taskQueue := s.taskQueue.erase p } : Ownership).store (s.threads (s.threads p).parent).children
          ((s.threads (s.threads p).parent).nChildren - 1) 0).modify (s.threads p).parent fun t =>
            { t with nChildren := t.nChildren - 1 } := by
  unfold Ownership.processFree at done
  rw [if_neg nonzero] at done
  simp only at done
  by_cases argv : (s.threads p).argv = 0
  · simp [Ownership.freeBlocks, argv] at done
  · rw [@freeBlocks_eq { s with size := killPid s.size } p argv, ok_bind] at done
    unfold Ownership.popChild Ownership.freeKstack at done
    simp only at done
    split at done
    · cases done
    · next some =>
      split at done
      · cases done
      · next array =>
        cases done
        exact ⟨argv, some, array, rfl⟩

end Ownership

end Illinix.Verified.Process
