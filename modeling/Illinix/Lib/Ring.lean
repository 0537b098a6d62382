import Mathlib.Tactic

/-! # Circular doubly linked lists in memory

Memory maps addresses to words.  A node is the address of a record with a forward and a
backward link at fixed offsets.  `Seg mem a nodes b` says that the links lead from `a`
through `nodes` to `b` and back; a ring is a segment from its sentinel to itself whose
link cells are all different.  `Ring.pushBack` and `Ring.unlink` are the two updates. -/

namespace Illinix.Lib

open List Function

/-- The offsets of the two links in a node. -/
structure Links where
  next : ℕ
  last : ℕ

namespace Links

variable (L : Links) (mem mem' : ℕ → ℕ)

def Linked (x y : ℕ) : Prop := mem (x + L.next) = y ∧ mem (y + L.last) = x

def Seg (a : ℕ) : List ℕ → ℕ → Prop
  | [], b => L.Linked mem a b
  | x :: nodes, b => L.Linked mem a x ∧ Seg x nodes b

structure Ring (list : ℕ) (nodes : List ℕ) : Prop where
  seg : L.Seg mem list nodes list
  nodup : (list :: nodes).Nodup
  apart : ∀ x ∈ list :: nodes, ∀ y ∈ list :: nodes, x + L.next ≠ y + L.last

/-- Link `x` in before the sentinel. -/
def pushBack (list x : ℕ) : ℕ → ℕ :=
  update (update (update (update mem
    (x + L.last) (mem (list + L.last))) (x + L.next) list) (mem (list + L.last) + L.next) x)
    (list + L.last) x

/-- Link the neighbours of `x` to each other; the second write reads the links of `x` after
    the first. -/
def unlink (x : ℕ) : ℕ → ℕ :=
  let mem := update mem (mem (x + L.last) + L.next) (mem (x + L.next))
  update mem (mem (x + L.next) + L.last) (mem (x + L.last))

def relink (p q : ℕ) : ℕ → ℕ :=
  update (update mem (p + L.next) q) (q + L.last) p

variable {L mem mem'} {a b c x p q list : ℕ} {nodes left right : List ℕ}

theorem seg_append : L.Seg mem a (left ++ x :: right) b ↔ L.Seg mem a left x ∧ L.Seg mem x right b := by
  induction left generalizing a with
  | nil => rfl
  | cons y left ih => simp only [cons_append, Seg, ih, and_assoc]

/-- A segment depends on the forward links of all but its end and on the backward links of
    all but its start. -/
theorem Seg.congr (seg : L.Seg mem a nodes b) (next : ∀ u ∈ a :: nodes, mem' (u + L.next) = mem (u + L.next))
    (last : ∀ v ∈ nodes ++ [b], mem' (v + L.last) = mem (v + L.last)) : L.Seg mem' a nodes b := by
  induction nodes generalizing a with
  | nil =>
    obtain ⟨forward, backward⟩ := seg
    exact ⟨by rw [next a (by simp), forward], by rw [last b (by simp), backward]⟩
  | cons x nodes ih =>
    obtain ⟨⟨forward, backward⟩, rest⟩ := seg
    refine ⟨⟨by rw [next a (by simp), forward], by rw [last x (by simp), backward]⟩, ?_⟩
    apply ih rest
    · intro u hu
      exact next u (mem_cons_of_mem _ hu)
    · intro v hv
      exact last v (mem_cons_of_mem _ hv)

theorem Seg.last_mem (seg : L.Seg mem a nodes b) : mem (b + L.last) ∈ a :: nodes := by
  induction nodes generalizing a with
  | nil => simp [seg.2]
  | cons x nodes ih => exact mem_cons_of_mem _ (ih seg.2)

theorem Seg.next_eq (seg : L.Seg mem a nodes b) : mem (a + L.next) = (nodes ++ [b]).head (by simp) := by
  cases nodes with
  | nil => exact seg.1
  | cons x nodes => exact seg.1.1

theorem relink_linked (apart : p + L.next ≠ q + L.last) : L.Linked (L.relink mem p q) p q :=
  ⟨by simp [relink, apart], by simp [relink]⟩

theorem relink_of_ne {cell : ℕ} (next : cell ≠ p + L.next) (last : cell ≠ q + L.last) :
    L.relink mem p q cell = mem cell := by
  simp [relink, next, last]

/-- Give a segment another end: only the link to the end is replaced. -/
theorem Seg.relink (seg : L.Seg mem a nodes b) (nodup : (a :: nodes).Nodup) (fresh : q ∉ nodes)
    (apart : ∀ u ∈ a :: nodes, ∀ v ∈ q :: a :: nodes, u + L.next ≠ v + L.last) :
    L.Seg (L.relink mem (mem (b + L.last)) q) a nodes q := by
  cases nodes using reverseRecOn with
  | nil =>
    obtain ⟨_, back⟩ := seg
    rw [back]
    exact relink_linked (apart a (by simp) q (by simp))
  | append_singleton init p =>
    rw [seg_append] at seg ⊢
    obtain ⟨front, _, back⟩ := seg
    rw [back]
    refine ⟨front.congr (fun u hu => relink_of_ne ?_ ?_) (fun v hv => relink_of_ne ?_ ?_),
      relink_linked (apart p (by simp) q (by simp))⟩
    · -- `p` comes after `u`
      intro eq
      obtain rfl : u = p := by omega
      exact (nodup_append.mp nodup).2.2 u hu u (by simp) rfl
    · exact apart u (by simp at hu ⊢; tauto) q (by simp)
    · exact (apart p (by simp) v (by simp at hv ⊢; tauto)).symm
    · intro eq
      obtain rfl : v = q := by omega
      exact fresh hv

namespace Ring

variable (ring : L.Ring mem list nodes)
include ring

theorem congr (next : ∀ u ∈ list :: nodes, mem' (u + L.next) = mem (u + L.next))
    (last : ∀ u ∈ list :: nodes, mem' (u + L.last) = mem (u + L.last)) : L.Ring mem' list nodes := by
  refine ⟨ring.seg.congr next fun v hv => last v ?_, ring.nodup, ring.apart⟩
  simp only [mem_append, mem_cons] at hv ⊢
  tauto

theorem last_mem : mem (list + L.last) ∈ list :: nodes := ring.seg.last_mem

theorem neighbours (nodes_eq : nodes = left ++ x :: right) :
    mem (x + L.last) ∈ list :: nodes ∧ mem (x + L.next) ∈ list :: nodes ∧ mem (x + L.last) ≠ x := by
  subst nodes_eq
  obtain ⟨before, after⟩ := seg_append.mp ring.seg
  have prev := before.last_mem
  have next := head_mem (l := right ++ [list]) (by simp)
  rw [← after.next_eq] at next
  refine ⟨by simp at prev ⊢; tauto, by simp at next ⊢; tauto, fun same => ?_⟩
  have nodup := ring.nodup
  exact (nodup_append.mp nodup).2.2 _ prev x (by simp) same

theorem unlink_eq (hx : x ∈ nodes) :
    L.unlink mem x = L.relink mem (mem (x + L.last)) (mem (x + L.next)) := by
  obtain ⟨left, right, nodes_eq⟩ := append_of_mem hx
  obtain ⟨prev, _, ne⟩ := ring.neighbours nodes_eq
  have apart := ring.apart _ prev x (mem_cons_of_mem _ hx)
  have forward : x + L.next ≠ mem (x + L.last) + L.next := by omega
  simp only [Links.unlink, relink]
  rw [update_of_ne forward, update_of_ne apart.symm]

/-- Words that are no links of the ring or of `x`. -/
theorem pushBack_of_ne {cell : ℕ} (ne : ∀ y ∈ x :: list :: nodes, cell ≠ y + L.next ∧ cell ≠ y + L.last) :
    L.pushBack mem list x cell = mem cell := by
  have own := ne x (by simp)
  have front := ne list (by simp)
  have back := ne _ (mem_cons_of_mem _ ring.last_mem)
  simp [Links.pushBack, own.1, own.2, front.2, back.1]

theorem unlink_of_ne {cell : ℕ} (hx : x ∈ nodes)
    (ne : ∀ y ∈ list :: nodes, cell ≠ y + L.next ∧ cell ≠ y + L.last) :
    L.unlink mem x cell = mem cell := by
  obtain ⟨left, right, nodes_eq⟩ := append_of_mem hx
  obtain ⟨prev, next, _⟩ := ring.neighbours nodes_eq
  rw [ring.unlink_eq hx]
  exact relink_of_ne (ne _ prev).1 (ne _ next).2

theorem pushBack (fresh : x ∉ list :: nodes)
    (apart : ∀ y ∈ x :: list :: nodes, x + L.next ≠ y + L.last ∧ y + L.next ≠ x + L.last) :
    L.Ring (L.pushBack mem list x) list (nodes ++ [x]) := by
  have notMem : x ∉ nodes := fun h => fresh (mem_cons_of_mem _ h)
  have ne : x ≠ list := fun h => fresh (by simp [h])
  have all : ∀ u ∈ list :: nodes ++ [x], ∀ v ∈ list :: nodes ++ [x], u + L.next ≠ v + L.last := by
    intro u hu v hv
    rw [mem_append, mem_singleton] at hu hv
    cases hu with
    | inl old =>
      cases hv with
      | inl old' => exact ring.apart u old v old'
      | inr new => exact new ▸ (apart u (mem_cons_of_mem _ old)).2
    | inr new =>
      cases hv with
      | inl old => exact new ▸ (apart v (mem_cons_of_mem _ old)).1
      | inr new' => exact new ▸ new' ▸ (apart x (by simp)).1
  refine ⟨?_, ?_, all⟩
  · -- the old nodes lead to `x`; the other two writes close the ring
    have opened := ring.seg.relink ring.nodup notMem fun u hu v hv => all u (by simp at hu ⊢; tauto)
      v (by simp at hv ⊢; tauto)
    have value : ∀ cell ≠ x + L.next, cell ≠ list + L.last →
        L.pushBack mem list x cell = L.relink mem (mem (list + L.last)) x cell := by
      intro cell hnext hlast
      have prev := (apart _ (mem_cons_of_mem _ ring.seg.last_mem)).2
      by_cases atPrev : cell = mem (list + L.last) + L.next
      · subst atPrev
        simp [Links.pushBack, Links.relink, hlast, prev]
      · simp [Links.pushBack, Links.relink, hnext, hlast, atPrev, update_apply]
    rw [seg_append]
    refine ⟨opened.congr (fun u hu => value _ ?_ ?_) (fun v hv => value _ ?_ ?_), ?_, ?_⟩
    · exact fun eq => fresh ((by omega : u = x) ▸ hu)
    · exact ring.apart u hu list (by simp)
    · exact (all x (by simp) v (by simp at hv ⊢; tauto)).symm
    · intro eq
      obtain rfl : v = list := by omega
      rw [mem_append, mem_singleton] at hv
      exact hv.elim (nodup_cons.mp ring.nodup).1 ne.symm
    · have prevNe : x + L.next ≠ mem (list + L.last) + L.next := fun eq =>
        fresh ((by omega : mem (list + L.last) = x) ▸ ring.seg.last_mem)
      rw [Links.pushBack, update_of_ne (apart list (by simp)).1,
        update_of_ne prevNe, update_self]
    · simp [Links.pushBack]
  · exact nodup_append.mpr ⟨ring.nodup, nodup_singleton x, fun u hu v hv eq => by
      rw [mem_singleton] at hv
      exact fresh (hv ▸ eq ▸ hu)⟩

theorem unlink (nodes_eq : nodes = left ++ x :: right) :
    L.Ring (L.unlink mem x) list (left ++ right) := by
  rw [ring.unlink_eq (by simp [nodes_eq])]
  subst nodes_eq
  obtain ⟨before, after⟩ := seg_append.mp ring.seg
  have sublist : (list :: (left ++ right)).Sublist (list :: (left ++ x :: right)) :=
    ((sublist_cons_self x right).append_left left).cons_cons list
  have nodup := ring.nodup.sublist sublist
  have apart : ∀ u ∈ list :: (left ++ right), ∀ v ∈ list :: (left ++ right), u + L.next ≠ v + L.last :=
    fun u hu v hv => ring.apart u (sublist.subset hu) v (sublist.subset hv)
  have prefixNodup : (list :: left).Nodup := nodup.sublist ((sublist_append_left left right).cons_cons list)
  refine ⟨?_, nodup, apart⟩
  rw [after.next_eq]
  cases right with
  | nil =>
    simp only [nil_append, head_cons, append_nil] at apart ⊢
    exact before.relink prefixNodup (nodup_cons.mp prefixNodup).1 fun u hu v hv =>
      apart u hu v (by simp at hv ⊢; tauto)
  | cons q right =>
    simp only [cons_append, head_cons]
    have prev := before.last_mem
    have qFresh : q ∉ list :: left := fun h => by
      exact (nodup_append.mp nodup).2.2 q h q (by simp) rfl
    rw [seg_append]
    refine ⟨before.relink prefixNodup (fun h => qFresh (mem_cons_of_mem _ h)) fun u hu v hv =>
      apart u (by simp at hu ⊢; tauto) v (by simp at hv ⊢; tauto),
      after.2.congr (fun u hu => relink_of_ne ?_ ?_) (fun v hv => relink_of_ne ?_ ?_)⟩
    · -- `u` comes after the removed node
      intro eq
      have same : u = mem (x + L.last) := by omega
      exact (nodup_append.mp nodup).2.2 _ prev u hu same.symm
    · exact apart u (by simp at hu ⊢; tauto) q (by simp)
    · exact (apart _ (by simp at prev ⊢; tauto) v (by simp at hv ⊢; tauto)).symm
    · intro eq
      obtain rfl : v = q := by omega
      rw [mem_append, mem_singleton] at hv
      cases hv with
      | inl later =>
        rw [← cons_append] at nodup
        exact (nodup_cons.mp (nodup_append.mp nodup).2.1).1 later
      | inr sentinel => exact qFresh (by simp [sentinel])

end Ring

end Links

end Illinix.Lib
