import Mathlib.Tactic

/-! # Extents of memory

An extent is a nonempty range of addresses.  `Partition R es` says that the extents of
`es` are pairwise apart and together cover exactly the addresses of `R`; splitting an
extent and joining two adjacent ones keep it. -/

namespace Illinix.Lib

open List

structure Extent where
  start : ℕ
  len : ℕ
deriving DecidableEq, Repr

namespace Extent

def Has (e : Extent) (a : ℕ) : Prop := e.start ≤ a ∧ a < e.start + e.len

def Apart (e f : Extent) : Prop := e.start + e.len ≤ f.start ∨ f.start + f.len ≤ e.start

theorem Apart.symm {e f : Extent} (h : e.Apart f) : f.Apart e := Or.symm h

instance : Std.Symm Apart := ⟨fun _ _ => Apart.symm⟩

/-- One extent ends where the other starts. -/
def Adjacent (e f : Extent) : Prop := e.start + e.len = f.start ∨ f.start + f.len = e.start

theorem Adjacent.symm {e f : Extent} (h : e.Adjacent f) : f.Adjacent e := Or.symm h

theorem apart_of_disjoint {e f : Extent} (he : 0 < e.len) (hf : 0 < f.len)
    (disjoint : ∀ a, e.Has a → ¬ f.Has a) : e.Apart f := by
  by_contra h
  unfold Apart at h
  apply disjoint (max e.start f.start)
  · unfold Has
    omega
  · unfold Has
    omega

end Extent

/-- The addresses of a list of extents. -/
def span (es : List Extent) : Finset ℕ :=
  es.foldr (fun e s => Finset.Ico e.start (e.start + e.len) ∪ s) ∅

theorem mem_span {es : List Extent} {a : ℕ} : a ∈ span es ↔ ∃ e ∈ es, e.Has a := by
  induction es with
  | nil => simp [span]
  | cons e es ih =>
    have split : a ∈ span (e :: es) ↔ e.Has a ∨ a ∈ span es := by
      simp [span, Extent.Has]
    rw [split, ih, exists_mem_cons_iff]

theorem card_span {es : List Extent} (apart : es.Pairwise Extent.Apart) :
    (span es).card = (es.map Extent.len).sum := by
  induction es with
  | nil => rfl
  | cons e es ih =>
    obtain ⟨first, rest⟩ := pairwise_cons.mp apart
    have disjoint : Disjoint (Finset.Ico e.start (e.start + e.len)) (span es) := by
      rw [Finset.disjoint_left]
      intro a ha hs
      obtain ⟨f, hf, has⟩ := mem_span.mp hs
      have := first f hf
      rw [Finset.mem_Ico] at ha
      simp only [Extent.Has, Extent.Apart] at has this
      omega
    rw [map_cons, sum_cons, ← ih rest, span, foldr_cons, ← span,
      Finset.card_union_of_disjoint disjoint, Nat.card_Ico, Nat.add_sub_cancel_left]

structure Partition (R : ℕ → Prop) (es : List Extent) : Prop where
  positive : ∀ e ∈ es, 0 < e.len
  cover : ∀ a, R a ↔ ∃ e ∈ es, e.Has a
  apart : es.Pairwise Extent.Apart

namespace Partition

variable {R : ℕ → Prop} {es fs : List Extent} {e f : Extent}

theorem perm (p : Partition R es) (h : es.Perm fs) : Partition R fs :=
  ⟨fun e he => p.positive e (h.mem_iff.mpr he), fun a => by simp only [p.cover, h.mem_iff],
    (h.pairwise_iff fun {_ _} => Extent.Apart.symm).mp p.apart⟩

theorem apart_of_ne (p : Partition R es) (he : e ∈ es) (hf : f ∈ es) (ne : e ≠ f) : e.Apart f :=
  p.apart.forall he hf ne

theorem nodup (p : Partition R es) : (es.map Extent.start).Nodup := by
  refine pairwise_map.mpr (p.apart.imp_of_mem fun {e f} he hf apart => ?_)
  have := p.positive e he
  have := p.positive f hf
  unfold Extent.Apart at apart
  omega

theorem split_iff {s m k : ℕ} (hm : 0 < m) (hk : 0 < k) :
    Partition R (⟨s, m + k⟩ :: es) ↔ Partition R (⟨s, m⟩ :: ⟨s + m, k⟩ :: es) := by
  have has : ∀ a, Extent.Has ⟨s, m + k⟩ a ↔ Extent.Has ⟨s, m⟩ a ∨ Extent.Has ⟨s + m, k⟩ a := by
    intro a
    simp only [Extent.Has]
    omega
  constructor
  · intro p
    obtain ⟨first, rest⟩ := pairwise_cons.mp p.apart
    refine ⟨?_, fun a => ?_, ?_⟩
    · simp only [mem_cons]
      rintro e (rfl | rfl | he)
      exacts [hm, hk, p.positive e (mem_cons_of_mem _ he)]
    · rw [p.cover]
      simp only [mem_cons, exists_eq_or_imp, has, or_assoc]
    · refine pairwise_cons.mpr ⟨fun f hf => ?_, pairwise_cons.mpr ⟨fun f hf => ?_, rest⟩⟩
      · cases mem_cons.mp hf with
        | inl same => exact .inl (by rw [same])
        | inr old =>
          have := first f old
          unfold Extent.Apart at *
          simp only at this ⊢
          omega
      · have := first f hf
        unfold Extent.Apart at *
        simp only at this ⊢
        omega
  · intro p
    obtain ⟨first, rest⟩ := pairwise_cons.mp p.apart
    obtain ⟨second, rest⟩ := pairwise_cons.mp rest
    refine ⟨?_, fun a => ?_, pairwise_cons.mpr ⟨fun f hf => ?_, rest⟩⟩
    · simp only [mem_cons]
      rintro e (rfl | he)
      exacts [Nat.add_pos_left hm k, p.positive e (by simp [he])]
    · rw [p.cover]
      simp only [mem_cons, exists_eq_or_imp, has, or_assoc]
    · -- `f` is not empty, so it does not fit between the halves
      have left := first f (mem_cons_of_mem _ hf)
      have right := second f hf
      have positive := p.positive f (by simp [hf])
      unfold Extent.Apart at *
      simp only at left right ⊢
      omega

theorem cons (p : Partition R es) (positive : 0 < e.len) (outside : ∀ a, e.Has a → ¬ R a) :
    Partition (fun a => e.Has a ∨ R a) (e :: es) := by
  refine ⟨?_, fun a => ?_, pairwise_cons.mpr ⟨fun f hf => ?_, p.apart⟩⟩
  · simp only [mem_cons]
    rintro f (rfl | hf)
    exacts [positive, p.positive f hf]
  · simp only [p.cover, mem_cons, exists_eq_or_imp]
  · exact Extent.apart_of_disjoint positive (p.positive f hf) fun a ha hfa =>
      outside a ha ((p.cover a).mpr ⟨f, hf, hfa⟩)

theorem not_has (p : Partition R (es ++ fs)) (he : e ∈ es) (hf : f ∈ fs) {a : ℕ} (ha : e.Has a) :
    ¬ f.Has a := by
  intro has
  have apart := (pairwise_append.mp p.apart).2.2 e he f hf
  simp only [Extent.Has, Extent.Apart] at ha has apart
  omega

theorem start_ne (p : Partition R (es ++ fs)) (he : e ∈ es) (hf : f ∈ fs) : e.start ≠ f.start := by
  intro same
  have positive := p.positive e (mem_append_left _ he)
  have positive' := p.positive f (mem_append_right _ hf)
  exact p.not_has he hf ⟨le_rfl, by omega⟩ ⟨same.ge, by omega⟩

/-- When `f` takes the place of `e` and of those extents of `es` that are not in `fs`, it covers
    what they covered. -/
theorem has_joined {gs : List Extent} (p : Partition R (es ++ [e] ++ gs))
    (q : Partition R (fs ++ [f] ++ gs)) (subset : ∀ x ∈ fs, x ∈ es) (a : ℕ) :
    f.Has a ↔ e.Has a ∨ ∃ x ∈ es, x ∉ fs ∧ x.Has a := by
  have p' := p
  have q' := q
  rw [append_assoc] at p' q'
  constructor
  · intro ha
    obtain ⟨x, hx, has⟩ := (p.cover a).mp ((q.cover a).mpr ⟨f, by simp, ha⟩)
    rw [mem_append, mem_append, mem_singleton] at hx
    rcases hx with (old | rfl) | rest
    · exact .inr ⟨x, old, fun kept => q'.not_has kept (by simp) has ha, has⟩
    · exact .inl has
    · exact absurd has (q.not_has (by simp) rest ha)
  · intro h
    obtain ⟨x, hx, gone, has⟩ : ∃ x ∈ es ++ [e], x ∉ fs ∧ x.Has a := by
      rcases h with ha | ⟨x, hx, gone, has⟩
      · exact ⟨e, by simp, fun kept => p'.not_has (subset e kept) (by simp) ha ha, ha⟩
      · exact ⟨x, by simp [hx], gone, has⟩
    obtain ⟨y, hy, has'⟩ := (q.cover a).mp ((p.cover a).mpr ⟨x, mem_append_left _ hx, has⟩)
    rw [mem_append, mem_append, mem_singleton] at hy
    rcases hy with (kept | rfl) | rest
    · -- `x` and `y` share an address, and `y` is still there
      have ne : y ≠ x := fun same => gone (same ▸ kept)
      have apart := p.apart_of_ne (by simp [subset y kept]) (mem_append_left _ hx) ne
      simp only [Extent.Has, Extent.Apart] at has has' apart
      omega
    · exact has'
    · exact absurd has' (p.not_has hx rest has)

/-- Two partitions of the same addresses have the same length altogether. -/
theorem sum_len (p : Partition R es) (q : Partition R fs) :
    (es.map Extent.len).sum = (fs.map Extent.len).sum := by
  have same : span es = span fs := by
    ext a
    rw [mem_span, mem_span, ← p.cover, ← q.cover]
  rw [← card_span p.apart, ← card_span q.apart, same]

theorem length_le (p : Partition R es) {n : ℕ} (bound : ∀ a, R a → a < n) : es.length ≤ n := by
  have subset : (es.map Extent.start).toFinset ⊆ Finset.range n := by
    intro a ha
    obtain ⟨e, he, rfl⟩ := mem_map.mp (mem_toFinset.mp ha)
    have := p.positive e he
    exact Finset.mem_range.mpr (bound _ ((p.cover _).mpr ⟨e, he, le_rfl, by omega⟩))
  have card := Finset.card_le_card subset
  rwa [toFinset_card_of_nodup p.nodup, length_map, Finset.card_range] at card

end Partition

end Illinix.Lib
