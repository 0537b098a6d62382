import Mathlib.Tactic

/-! # Dyadic cells and their tilings

The cell of order `o` and index `i` is the set of points `p` with `p / 2 ^ o = i`.
Two cells are nested or disjoint, and the two cells of order `o` that share the
parent `i` of order `o + 1` have the indices `2 * i` and `2 * i + 1`.

The main result is `Coalesced.mem_iff`: a family of disjoint cells in which no two
siblings both occur consists of exactly the maximal cells inside the region it
covers, so it is determined by that region (`Coalesced.unique`). -/

namespace Illinix.Lib.Dyadic

structure Cell where
  order : ℕ
  index : ℕ
deriving DecidableEq, Repr

namespace Cell

/-- The points of a cell. -/
def Has (c : Cell) (p : ℕ) : Prop := p / 2 ^ c.order = c.index

instance (c : Cell) (p : ℕ) : Decidable (c.Has p) := inferInstanceAs (Decidable (_ = _))

def parent (c : Cell) : Cell := ⟨c.order + 1, c.index / 2⟩

/-- The other half of the parent. -/
def sibling (c : Cell) : Cell :=
  ⟨c.order, if c.index % 2 = 0 then c.index + 1 else c.index - 1⟩

theorem has_iff (c : Cell) (p : ℕ) :
    c.Has p ↔ c.index * 2 ^ c.order ≤ p ∧ p < (c.index + 1) * 2 ^ c.order := by
  have positive : 0 < 2 ^ c.order := by positivity
  constructor
  · intro h
    rw [← h, Nat.add_mul, Nat.one_mul]
    exact ⟨Nat.div_mul_le_self _ _, Nat.lt_div_mul_add positive⟩
  · rintro ⟨lower, upper⟩
    exact Nat.div_eq_of_lt_le lower upper

theorem has_first (c : Cell) : c.Has (c.index * 2 ^ c.order) := Nat.mul_div_cancel _ (by positivity)

theorem has_parent {c : Cell} {p : ℕ} (h : c.Has p) : c.parent.Has p := by
  unfold Has at h
  simp only [Has, parent, pow_succ, ← Nat.div_div_eq_div_mul, h]

theorem eq_of_has {c d : Cell} {p : ℕ} (same : c.order = d.order) (hc : c.Has p) (hd : d.Has p) : c = d := by
  cases c; cases d
  simp only [Has] at *
  subst same
  simp [← hc, ← hd]

theorem parent_has_iff (c : Cell) (p : ℕ) :
    c.parent.Has p ↔ c.Has p ∨ c.sibling.Has p := by
  simp only [Has, parent, sibling, pow_succ, ← Nat.div_div_eq_div_mul]
  split <;> omega

theorem has_iff_halves {o i p : ℕ} :
    (Cell.mk (o + 1) i).Has p ↔ (Cell.mk o (2 * i)).Has p ∨ (Cell.mk o (2 * i + 1)).Has p := by
  simp only [Has, pow_succ, ← Nat.div_div_eq_div_mul]
  omega

/-- A cell that meets a cell of higher order lies inside it. -/
theorem has_of_order_le {c d : Cell} {p q : ℕ} (le : c.order ≤ d.order)
    (hc : c.Has p) (hd : d.Has p) (hq : c.Has q) : d.Has q := by
  unfold Has at *
  obtain ⟨k, hk⟩ := Nat.exists_eq_add_of_le le
  rw [hk, pow_add, ← Nat.div_div_eq_div_mul] at hd ⊢
  rw [hq, ← hc, hd]

end Cell

/-! ## Tilings -/

/-- The cells of `T` have order at most `top`, lie inside `[0, n)`, cover it, and do
    not overlap. -/
structure Tiles (n top : ℕ) (T : Cell → Prop) : Prop where
  order_le : ∀ c, T c → c.order ≤ top
  inside : ∀ c, T c → ∀ p, c.Has p → p < n
  cover : ∀ p < n, ∃ c, T c ∧ c.Has p
  disjoint : ∀ c d p, T c → T d → c.Has p → d.Has p → c = d

namespace Tiles

variable {n top : ℕ} {T U : Cell → Prop}

theorem congr (tiles : Tiles n top T) (same : ∀ c, U c ↔ T c) : Tiles n top U := by
  have : U = T := funext fun c => propext (same c)
  rwa [this]

theorem split {o i : ℕ} (tiles : Tiles n top T) (member : T ⟨o + 1, i⟩) :
    Tiles n top fun c => (T c ∧ c ≠ ⟨o + 1, i⟩) ∨ c = ⟨o, 2 * i⟩ ∨ c = ⟨o, 2 * i + 1⟩ := by
  -- a point of a half is a point of the cell that was replaced
  have half : ∀ (c : Cell) (p : ℕ), c = ⟨o, 2 * i⟩ ∨ c = ⟨o, 2 * i + 1⟩ → c.Has p →
      (Cell.mk (o + 1) i).Has p := by
    rintro c p (rfl | rfl) hp
    · exact Cell.has_iff_halves.mpr (.inl hp)
    · exact Cell.has_iff_halves.mpr (.inr hp)
  refine ⟨?_, ?_, ?_, ?_⟩
  · rintro c (⟨hc, _⟩ | rfl | rfl)
    · exact tiles.order_le c hc
    all_goals exact (Nat.le_succ o).trans (tiles.order_le _ member)
  · rintro c (⟨hc, _⟩ | hc) p hp
    · exact tiles.inside c hc p hp
    · exact tiles.inside _ member p (half c p hc hp)
  · intro p hp
    obtain ⟨c, hc, hcp⟩ := tiles.cover p hp
    by_cases same : c = ⟨o + 1, i⟩
    · subst same
      rcases Cell.has_iff_halves.mp hcp with h | h
      · exact ⟨_, .inr (.inl rfl), h⟩
      · exact ⟨_, .inr (.inr rfl), h⟩
    · exact ⟨c, .inl ⟨hc, same⟩, hcp⟩
  · rintro c d p (⟨hc, hcne⟩ | hc) (⟨hd, hdne⟩ | hd) hcp hdp
    · exact tiles.disjoint c d p hc hd hcp hdp
    · exact absurd (tiles.disjoint _ _ p hc member hcp (half d p hd hdp)) hcne
    · exact absurd (tiles.disjoint _ _ p hd member hdp (half c p hc hcp)) hdne
    · refine Cell.eq_of_has ?_ hcp hdp
      rcases hc with rfl | rfl <;> rcases hd with rfl | rfl <;> rfl

theorem merge {c : Cell} (tiles : Tiles n top T) (member : T c) (other : T c.sibling)
    (below : c.order < top) :
    Tiles n top fun d => (T d ∧ d ≠ c ∧ d ≠ c.sibling) ∨ d = c.parent := by
  -- a cell of the tiling that meets the parent is one of the two halves
  have meets : ∀ d p, T d → d.Has p → c.parent.Has p → d = c ∨ d = c.sibling := by
    intro d p hd hdp hp
    rcases (Cell.parent_has_iff c p).mp hp with h | h
    · exact .inl (tiles.disjoint d c p hd member hdp h)
    · exact .inr (tiles.disjoint d c.sibling p hd other hdp h)
  refine ⟨?_, ?_, ?_, ?_⟩
  · rintro d (⟨hd, _⟩ | rfl)
    · exact tiles.order_le d hd
    · exact below
  · rintro d (⟨hd, _⟩ | rfl) p hp
    · exact tiles.inside d hd p hp
    · rcases (Cell.parent_has_iff c p).mp hp with h | h
      · exact tiles.inside c member p h
      · exact tiles.inside _ other p h
  · intro p hp
    by_cases inParent : c.parent.Has p
    · exact ⟨_, .inr rfl, inParent⟩
    · obtain ⟨d, hd, hdp⟩ := tiles.cover p hp
      refine ⟨d, .inl ⟨hd, ?_, ?_⟩, hdp⟩
      · rintro rfl
        exact inParent (Cell.has_parent hdp)
      · rintro rfl
        exact inParent ((Cell.parent_has_iff c p).mpr (.inr hdp))
  · rintro d e p (⟨hd, hdc, hds⟩ | rfl) (⟨he, hec, hes⟩ | rfl) hdp hep
    · exact tiles.disjoint d e p hd he hdp hep
    · rcases meets d p hd hdp hep with h | h
      · exact absurd h hdc
      · exact absurd h hds
    · rcases meets e p he hep hdp with h | h
      · exact absurd h hec
      · exact absurd h hes
    · rfl

end Tiles

/-! ## Coalesced families -/

/-- Disjoint cells of order at most `top` among which no two siblings below `top`
    both occur. -/
structure Coalesced (top : ℕ) (F : Cell → Prop) : Prop where
  order_le : ∀ c, F c → c.order ≤ top
  disjoint : ∀ c d p, F c → F d → c.Has p → d.Has p → c = d
  apart : ∀ o i, o < top → ¬ (F ⟨o, 2 * i⟩ ∧ F ⟨o, 2 * i + 1⟩)

/-- The points covered by a family. -/
def Region (F : Cell → Prop) (p : ℕ) : Prop := ∃ c, F c ∧ c.Has p

namespace Coalesced

variable {top : ℕ} {F G : Cell → Prop}

/-- A cell inside the region of a coalesced family lies inside a single member. -/
theorem exists_cover (coalesced : Coalesced top F) :
    ∀ o i, o ≤ top → (∀ p, (Cell.mk o i).Has p → Region F p) →
      ∃ c, F c ∧ o ≤ c.order ∧ c.Has (i * 2 ^ o) := by
  intro o
  induction o with
  | zero =>
    intro i _ inRegion
    obtain ⟨c, hc, hcp⟩ := inRegion (i * 2 ^ 0) (Cell.has_first ⟨0, i⟩)
    exact ⟨c, hc, Nat.zero_le _, hcp⟩
  | succ o ih =>
    intro i bound inRegion
    obtain ⟨c, hc, hco, hcp⟩ := ih (2 * i) (by omega)
      (fun p hp => inRegion p (Cell.has_iff_halves.mpr (.inl hp)))
    obtain ⟨d, hd, hdo, hdp⟩ := ih (2 * i + 1) (by omega)
      (fun p hp => inRegion p (Cell.has_iff_halves.mpr (.inr hp)))
    have first : i * 2 ^ (o + 1) = 2 * i * 2 ^ o := by ring
    rcases Nat.lt_or_ge o c.order with larger | small
    · exact ⟨c, hc, larger, first ▸ hcp⟩
    rcases Nat.lt_or_ge o d.order with larger' | small'
    · -- the member over the right half is large enough to hold the left half too
      refine ⟨d, hd, larger', ?_⟩
      refine Cell.has_of_order_le (c := ⟨o + 1, i⟩) larger' ?_ hdp (Cell.has_first ⟨o + 1, i⟩)
      exact Cell.has_iff_halves.mpr (.inr (Cell.has_first ⟨o, 2 * i + 1⟩))
    -- otherwise both halves are members themselves
    · have hceq : c = ⟨o, 2 * i⟩ := Cell.eq_of_has (le_antisymm small hco) hcp (Cell.has_first ⟨o, 2 * i⟩)
      have hdeq : d = ⟨o, 2 * i + 1⟩ :=
        Cell.eq_of_has (le_antisymm small' hdo) hdp (Cell.has_first ⟨o, 2 * i + 1⟩)
      exact absurd ⟨hceq ▸ hc, hdeq ▸ hd⟩ (coalesced.apart o i bound)

/-- The members of a coalesced family are the maximal cells of its region. -/
theorem mem_iff (coalesced : Coalesced top F) (c : Cell) :
    F c ↔ c.order ≤ top ∧ (∀ p, c.Has p → Region F p) ∧
      (c.order < top → ∃ p, c.parent.Has p ∧ ¬ Region F p) := by
  constructor
  · intro hc
    refine ⟨coalesced.order_le c hc, fun p hp => ⟨c, hc, hp⟩, fun below => ?_⟩
    by_contra inside
    push Not at inside
    obtain ⟨d, hd, hdo, hdp⟩ := coalesced.exists_cover (c.order + 1) (c.index / 2) below inside
    have overlap : d.Has (c.index * 2 ^ c.order) :=
      Cell.has_of_order_le (c := c.parent) hdo (Cell.has_first c.parent) hdp (Cell.has_parent c.has_first)
    have := coalesced.disjoint c d _ hc hd c.has_first overlap
    subst this
    omega
  · rintro ⟨bound, inside, maximal⟩
    obtain ⟨d, hd, hdo, hdp⟩ := coalesced.exists_cover c.order c.index bound inside
    rcases Nat.eq_or_lt_of_le hdo with same | larger
    · rwa [Cell.eq_of_has same c.has_first hdp]
    · obtain ⟨p, hp, outside⟩ := maximal (larger.trans_le (coalesced.order_le d hd))
      exact absurd ⟨d, hd, Cell.has_of_order_le (c := c.parent) larger
        (Cell.has_parent c.has_first) hdp hp⟩ outside

/-- Coalesced families that cover the same region are equal. -/
theorem unique (first : Coalesced top F) (second : Coalesced top G)
    (same : ∀ p, Region F p ↔ Region G p) (c : Cell) : F c ↔ G c := by
  rw [first.mem_iff, second.mem_iff]
  simp only [same]

end Coalesced

end Illinix.Lib.Dyadic
