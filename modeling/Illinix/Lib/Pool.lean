import Mathlib.Data.List.Nodup

/-! # A pool of labelled blocks

An allocator seen from outside: the blocks it has handed out and not got back, each with a label that
says whose it is, the addresses other parts of the system have taken, and the addresses it answers with.
An answer that is in use, and the end of the answers, stand for a failure, so that no assumption on the
answers is needed.  Every release is recorded, also one of an address that is not held. -/

namespace Illinix.Lib

open List

universe u

structure PoolBlock (τ : Type u) where
  addr : Nat
  label : τ
deriving DecidableEq, Repr

structure Pool (τ : Type u) where
  held : List (PoolBlock τ)
  reserved : List Nat
  supply : List Nat
  released : List Nat

namespace Pool

variable {τ : Type u} {p : Pool τ}

def InUse (p : Pool τ) (a : Nat) : Prop := a ∈ p.held.map PoolBlock.addr ∨ a ∈ p.reserved

instance (p : Pool τ) (a : Nat) : Decidable (p.InUse a) := inferInstanceAs (Decidable (_ ∨ _))

/-- A new block, or address 0. -/
def alloc (p : Pool τ) (label : τ) : Nat × Pool τ :=
  match p.supply with
  | [] => (0, p)
  | a :: supply =>
    if a = 0 ∨ p.InUse a then
      (0, { p with supply })
    else
      (a, { p with supply, held := ⟨a, label⟩ :: p.held })

/-- Gives a block back; address 0 is ignored. -/
def release (p : Pool τ) (a : Nat) : Pool τ :=
  if a = 0 then
    p
  else
    { p with held := p.held.filter fun b => b.addr ≠ a, released := p.released ++ [a] }

def reserve (p : Pool τ) (a : Nat) : Pool τ := { p with reserved := a :: p.reserved }

def unreserve (p : Pool τ) (a : Nat) : Pool τ := { p with reserved := p.reserved.erase a }

def releaseAll (p : Pool τ) (l : List Nat) : Pool τ := l.foldl release p

theorem inUse_of_mem {b : PoolBlock τ} (mem : b ∈ p.held) : p.InUse b.addr := .inl (mem_map_of_mem mem)

/-! ## Allocation -/

/-- An allocation takes an answer, and hands it out unless it is 0 or in use. -/
theorem alloc_cases (p : Pool τ) (label : τ) :
    p.alloc label = (0, { p with supply := p.supply.tail }) ∧ (∀ a ∈ p.supply.head?, a = 0 ∨ p.InUse a) ∨
      ∃ a ∈ p.supply.head?, a ≠ 0 ∧ ¬p.InUse a ∧
        p.alloc label = (a, { p with supply := p.supply.tail, held := ⟨a, label⟩ :: p.held }) := by
  unfold alloc
  split
  · next none => exact .inl ⟨by rw [none, tail_nil, ← none], by simp [none]⟩
  · next a supply some =>
    rw [some]
    split
    · next failed => exact .inl ⟨rfl, by simpa using failed⟩
    · next free =>
      rw [not_or] at free
      exact .inr ⟨a, rfl, free.1, free.2, rfl⟩

@[simp] theorem reserved_alloc (p : Pool τ) (label : τ) : (p.alloc label).2.reserved = p.reserved := by
  obtain ⟨done, -⟩ | ⟨a, -, -, -, done⟩ := p.alloc_cases label <;> rw [done]

theorem mem_alloc {label : τ} {b : PoolBlock τ} :
    b ∈ (p.alloc label).2.held ↔ b ∈ p.held ∨ (p.alloc label).1 ≠ 0 ∧ b = ⟨(p.alloc label).1, label⟩ := by
  obtain ⟨done, -⟩ | ⟨a, -, nonzero, -, done⟩ := p.alloc_cases label
  · simp [done]
  · simp [done, nonzero, or_comm]

theorem not_inUse_alloc {label : τ} (nonzero : (p.alloc label).1 ≠ 0) : ¬p.InUse (p.alloc label).1 := by
  obtain ⟨done, -⟩ | ⟨a, -, -, free, done⟩ := p.alloc_cases label
  · rw [done] at nonzero
    exact absurd rfl nonzero
  · rw [done]
    exact free

theorem InUse.alloc {a : Nat} (used : p.InUse a) (label : τ) : (p.alloc label).2.InUse a := by
  cases used with
  | inl mem =>
    obtain ⟨b, held, rfl⟩ := mem_map.mp mem
    exact inUse_of_mem (mem_alloc.mpr (.inl held))
  | inr mem => exact .inr (by rwa [reserved_alloc])

/-! ## Release -/

theorem release_eq (p : Pool τ) (a : Nat) : p.release a = { p with
      held := p.held.filter fun b => b.addr = a → b.addr = 0
      released := p.released ++ [a].filter (· ≠ 0) } := by
  unfold release
  split
  · next zero => simp [zero]
  · next nonzero =>
    simp only [nonzero, filter_cons, ne_eq, not_false_eq_true, decide_true, if_true, filter_nil]
    congr 1
    apply filter_congr
    intro b _
    by_cases eq : b.addr = a <;> simp [eq, nonzero]

theorem releaseAll_eq (p : Pool τ) (l : List Nat) : p.releaseAll l = { p with
      held := p.held.filter fun b => b.addr ∈ l → b.addr = 0
      released := p.released ++ l.filter (· ≠ 0) } := by
  induction l generalizing p with
  | nil => simp [releaseAll]
  | cons a l ih =>
    rw [releaseAll, foldl_cons, ← releaseAll, ih, release_eq]
    simp only [filter_filter, append_assoc, ← filter_append, singleton_append]
    congr 1
    apply filter_congr
    intro b _
    by_cases eq : b.addr = a <;> by_cases mem : b.addr ∈ l <;> simp [eq, mem] <;> simp_all

theorem releaseAll_append (p : Pool τ) (l m : List Nat) :
    p.releaseAll (l ++ m) = (p.releaseAll l).releaseAll m := foldl_append

@[simp] theorem reserved_releaseAll (p : Pool τ) (l : List Nat) :
    (p.releaseAll l).reserved = p.reserved := by
  rw [releaseAll_eq]

theorem mem_releaseAll {l : List Nat} {b : PoolBlock τ} :
    b ∈ (p.releaseAll l).held ↔ b ∈ p.held ∧ (b.addr ∈ l → b.addr = 0) := by
  rw [releaseAll_eq]
  show b ∈ filter _ _ ↔ _
  rw [mem_filter, decide_eq_true_eq]

/-! ## The invariant -/

/-- No address is 0, and none is used twice. -/
structure Ok (p : Pool τ) : Prop where
  nodup : (p.held.map PoolBlock.addr).Nodup
  nonzero : ∀ b ∈ p.held, b.addr ≠ 0
  apart : ∀ b ∈ p.held, b.addr ∉ p.reserved
  reservedNodup : p.reserved.Nodup
  reservedNonzero : 0 ∉ p.reserved

namespace Ok

theorem unique (ok : p.Ok) {b c : PoolBlock τ} (hb : b ∈ p.held) (hc : c ∈ p.held)
    (same : b.addr = c.addr) : b = c :=
  inj_on_of_nodup_map ok.nodup hb hc same

theorem alloc (ok : p.Ok) (label : τ) : (p.alloc label).2.Ok := by
  obtain ⟨done, -⟩ | ⟨a, -, nonzero, free, done⟩ := p.alloc_cases label
  · rw [done]
    exact ⟨ok.nodup, ok.nonzero, ok.apart, ok.reservedNodup, ok.reservedNonzero⟩
  · rw [done]
    unfold InUse at free
    rw [not_or] at free
    constructor
    · exact nodup_cons.mpr ⟨free.1, ok.nodup⟩
    · simpa [nonzero] using ok.nonzero
    · simpa [free.2] using ok.apart
    · exact ok.reservedNodup
    · exact ok.reservedNonzero

theorem releaseAll (ok : p.Ok) (l : List Nat) : (p.releaseAll l).Ok := by
  rw [releaseAll_eq]
  constructor
  · exact ok.nodup.sublist (filter_sublist.map _)
  · exact fun b mem => ok.nonzero b (mem_of_mem_filter mem)
  · exact fun b mem => ok.apart b (mem_of_mem_filter mem)
  · exact ok.reservedNodup
  · exact ok.reservedNonzero

theorem reserve (ok : p.Ok) {a : Nat} (nonzero : a ≠ 0) (free : ¬p.InUse a) : (p.reserve a).Ok := by
  unfold InUse at free
  rw [not_or] at free
  constructor
  · exact ok.nodup
  · exact ok.nonzero
  · intro b mem
    show b.addr ∉ a :: p.reserved
    have other : b.addr ≠ a := fun eq => free.1 (eq ▸ mem_map_of_mem mem)
    simp [other, ok.apart b mem]
  · exact nodup_cons.mpr ⟨free.2, ok.reservedNodup⟩
  · show 0 ∉ a :: p.reserved
    simp [nonzero.symm, ok.reservedNonzero]

theorem unreserve (ok : p.Ok) (a : Nat) : (p.unreserve a).Ok := by
  constructor
  · exact ok.nodup
  · exact ok.nonzero
  · exact fun b mem reserved => ok.apart b mem (mem_of_mem_erase reserved)
  · exact ok.reservedNodup.erase a
  · exact fun zero => ok.reservedNonzero (mem_of_mem_erase zero)

end Ok

end Pool

end Illinix.Lib
