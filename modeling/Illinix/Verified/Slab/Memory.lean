import Illinix.Kernel.Slab
import Illinix.Lib.Ring
import Illinix.Lib.Extent
import Illinix.Lib.Except

/-! # Slab blocks in memory

`SlabRep mem list R free hand live` says that the words of memory describe the blocks in
`free`, `hand` and `live`: the size word of each block is its length, the free list links
the blocks of `free` in order, and a live block has status 1.  The blocks partition the
addresses of `R` and none is smaller than its header, so no two headers share a word.  The
blocks in `hand` are those an operation has taken off the list and not yet put anywhere. -/

namespace Illinix.Verified.Slab

open Kernel Lib Function List

def slabLinks : Links := ⟨12, 8⟩

structure SlabRep (mem : Mem) (list : ℕ) (R : ℕ → Prop) (free hand live : List Extent) : Prop where
  partition : Partition R (free ++ hand ++ live)
  bounded : ∀ a, R a → a < kernelPages * pageSize4MB
  header : ∀ b ∈ free ++ hand ++ live, slabHeader ≤ b.len
  below : ∀ b ∈ free ++ hand ++ live, list + slabHeader ≤ b.start
  size : ∀ b ∈ free ++ hand ++ live, mem.size b.start * slabUnit = b.len
  status : ∀ b ∈ live, mem.status b.start = 1
  ring : slabLinks.Ring mem list (free.map Extent.start)

variable {mem mem' : Mem} {list : ℕ} {R : ℕ → Prop} {free hand live left right : List Extent}
  {b c s : Extent}

namespace SlabRep

variable (rep : SlabRep mem list R free hand live)

/-! ## Headers do not overlap -/

section

include rep

theorem word_ne (hb : b ∈ free ++ hand ++ live) (hc : c ∈ free ++ hand ++ live) {k j : ℕ}
    (hk : k < 16) (hj : j < 16) (ne : k ≠ j) : b.start + k ≠ c.start + j := by
  by_cases eq : b = c
  · subst eq
    omega
  · have apart := rep.partition.apart_of_ne hb hc eq
    have first := rep.header b hb
    have second := rep.header c hc
    simp only [slabHeader, Extent.Apart] at apart first second
    omega

theorem listed_ne (hc : c ∈ free) (hb : b ∈ hand ++ live) : c.start ≠ b.start := by
  have blocks := rep.partition
  rw [append_assoc] at blocks
  exact blocks.start_ne hc hb

theorem sentinel_ne (hb : b ∈ free ++ hand ++ live) {k j : ℕ} (hj : j < 16) :
    b.start + k ≠ list + j := by
  have := rep.below b hb
  simp only [slabHeader] at this
  omega

/-- The size and status words of a block are no links of the ring. -/
theorem word_ne_link (hb : b ∈ free ++ hand ++ live) {k : ℕ} (hk : k < 8) :
    ∀ y ∈ list :: free.map Extent.start,
      b.start + k ≠ y + slabLinks.next ∧ b.start + k ≠ y + slabLinks.last := by
  intro y hy
  cases mem_cons.mp hy with
  | inl sentinel =>
    subst sentinel
    exact ⟨rep.sentinel_ne hb (by decide), rep.sentinel_ne hb (by decide)⟩
  | inr node =>
    obtain ⟨c, hc, rfl⟩ := mem_map.mp node
    have member : c ∈ free ++ hand ++ live := by simp [hc]
    have word : ∀ j < 16, k ≠ j → b.start + k ≠ c.start + j := fun j =>
      rep.word_ne hb member (by omega)
    exact ⟨word 12 (by decide) (by omega), word 8 (by decide) (by omega)⟩

theorem ring_update {cell v : ℕ} (ne : ∀ y ∈ list :: free.map Extent.start,
    cell ≠ y + slabLinks.next ∧ cell ≠ y + slabLinks.last) :
    slabLinks.Ring (update mem cell v) list (free.map Extent.start) :=
  rep.ring.congr (fun y hy => update_of_ne (ne y hy).1.symm _ _) fun y hy => update_of_ne (ne y hy).2.symm _ _

end

/-! ## Blocks change hands -/

theorem transfer (rep : SlabRep mem list R free hand live) {free' hand' live' : List Extent}
    (perm : (free ++ hand ++ live).Perm (free' ++ hand' ++ live'))
    (size : ∀ b ∈ free ++ hand ++ live, mem'.size b.start = mem.size b.start)
    (status : ∀ b ∈ live', mem'.status b.start = 1)
    (ring : slabLinks.Ring mem' list (free'.map Extent.start)) :
    SlabRep mem' list R free' hand' live' :=
  ⟨rep.partition.perm perm, rep.bounded, fun b hb => rep.header b (perm.mem_iff.mpr hb),
    fun b hb => rep.below b (perm.mem_iff.mpr hb),
    fun b hb => by rw [size b (perm.mem_iff.mpr hb)]; exact rep.size b (perm.mem_iff.mpr hb),
    status, ring⟩

theorem remove (rep : SlabRep mem list R (left ++ b :: right) hand live) :
    SlabRep (slabListRemove mem b.start) list R (left ++ right) (b :: hand) live := by
  have nodes : (left ++ b :: right).map Extent.start =
      left.map Extent.start ++ b.start :: right.map Extent.start := by simp
  have word : ∀ c ∈ left ++ b :: right ++ hand ++ live, ∀ k, k < 8 →
      slabListRemove mem b.start (c.start + k) = mem (c.start + k) := fun c hc k hk =>
    rep.ring.unlink_of_ne (by simp) (rep.word_ne_link hc hk)
  refine rep.transfer ?_ (fun c hc => word c hc 0 (by decide)) (fun c hc => ?_) ?_
  · simp only [append_assoc, cons_append]
    exact perm_middle.symm.append_left left
  · exact (word c (by simp [hc]) 4 (by decide)).trans (rep.status c hc)
  · rw [map_append]
    exact rep.ring.unlink nodes

theorem push (rep : SlabRep mem list R free (b :: hand) live) :
    SlabRep (slabListPush mem list b.start) list R (free ++ [b]) hand live := by
  have member : b ∈ free ++ (b :: hand) ++ live := by simp
  have fresh : b.start ∉ list :: free.map Extent.start := by
    intro h
    cases mem_cons.mp h with
    | inl sentinel => exact rep.sentinel_ne member (k := 0) (j := 0) (by decide) sentinel
    | inr node =>
      obtain ⟨c, hc, same⟩ := mem_map.mp node
      exact rep.listed_ne hc (by simp) same
  have apart : ∀ y ∈ b.start :: list :: free.map Extent.start,
      b.start + slabLinks.next ≠ y + slabLinks.last ∧ y + slabLinks.next ≠ b.start + slabLinks.last := by
    intro y hy
    simp only [mem_cons, mem_map, slabLinks] at hy ⊢
    obtain rfl | rfl | ⟨c, hc, rfl⟩ := hy
    · omega
    · exact ⟨rep.sentinel_ne member (by decide), (rep.sentinel_ne member (by decide)).symm⟩
    · have block : c ∈ free ++ (b :: hand) ++ live := by simp [hc]
      exact ⟨rep.word_ne member block (by decide) (by decide) (by decide),
        rep.word_ne block member (by decide) (by decide) (by decide)⟩
  have word : ∀ c ∈ free ++ (b :: hand) ++ live, ∀ k, k < 8 →
      slabListPush mem list b.start (c.start + k) = mem (c.start + k) := by
    intro c hc k hk
    apply rep.ring.pushBack_of_ne
    intro y hy
    cases mem_cons.mp hy with
    | inl own =>
      subst own
      have other : ∀ j < 16, k ≠ j → c.start + k ≠ b.start + j := fun j =>
        rep.word_ne hc member (by omega)
      exact ⟨other 12 (by decide) (by omega), other 8 (by decide) (by omega)⟩
    | inr old => exact rep.word_ne_link hc hk y old
  refine rep.transfer ?_ (fun c hc => word c hc 0 (by decide)) (fun c hc => ?_) ?_
  · simp
  · exact (word c (by simp [hc]) 4 (by decide)).trans (rep.status c hc)
  · rw [map_append]
    exact rep.ring.pushBack fresh apart

theorem allocate (rep : SlabRep mem list R free (b :: hand) live) :
    SlabRep (mem.setStatus b.start 1) list R free hand (b :: live) := by
  have member : b ∈ free ++ (b :: hand) ++ live := by simp
  refine rep.transfer ?_ (fun c hc => ?_) (fun c hc => ?_) ?_
  · simp only [append_assoc, cons_append]
    exact perm_middle.symm.append_left free
  · exact update_of_ne (rep.word_ne hc member (k := 0) (by decide) (by decide) (by decide)) _ _
  · by_cases own : c.start = b.start
    · rw [Mem.status, Mem.setStatus, own, update_self]
    · rw [Mem.status, Mem.setStatus, update_of_ne (by omega)]
      cases mem_cons.mp hc with
      | inl same => exact absurd (by rw [same]) own
      | inr old => exact rep.status c old
  · exact rep.ring_update (rep.word_ne_link member (by decide))

theorem setStatus (rep : SlabRep mem list R free (b :: hand) live) (v : ℕ) :
    SlabRep (mem.setStatus b.start v) list R free (b :: hand) live := by
  have member : b ∈ free ++ (b :: hand) ++ live := by simp
  refine rep.transfer (.refl _) (fun c hc => ?_) (fun c hc => ?_) ?_
  · exact update_of_ne (rep.word_ne hc member (k := 0) (by decide) (by decide) (by decide)) _ _
  · have ne : b.start ≠ c.start := rep.partition.start_ne (by simp) hc
    rw [Mem.status, Mem.setStatus, update_of_ne (by omega)]
    exact rep.status c hc
  · exact rep.ring_update (rep.word_ne_link member (by decide))

theorem release (rep : SlabRep mem list R free hand live) (hb : b ∈ live) :
    SlabRep mem list R free (b :: hand) (live.erase b) := by
  refine rep.transfer ?_ (fun _ _ => rfl) (fun c hc => ?_) rep.ring
  · simp only [append_assoc, cons_append]
    exact ((perm_cons_erase hb).append_left hand).trans perm_middle |>.append_left free
  · exact rep.status c (mem_of_mem_erase hc)

/-! ## Splitting and joining -/

theorem perm_hand (b : Extent) (free hand live : List Extent) :
    (free ++ (b :: hand) ++ live).Perm (b :: (free ++ hand ++ live)) := by
  simp only [append_assoc, cons_append]
  exact perm_middle

theorem outside (rep : SlabRep mem list R free hand live) (hb : b ∈ free ++ hand ++ live)
    (hc : c ∈ free ++ hand ++ live) (ne : c ≠ b) {j a : ℕ} (hj : j < 16) (ha : b.Has a) :
    c.start + j ≠ a := by
  have apart := rep.partition.apart_of_ne hc hb ne
  have first := rep.header c hc
  simp only [slabHeader, Extent.Apart, Extent.Has] at apart first ha
  omega

/-- A write inside a block that is not on the list keeps the ring. -/
theorem ring_inside (rep : SlabRep mem list R free hand live) (hb : b ∈ hand ++ live)
    (same : ∀ a, ¬ b.Has a → mem' a = mem a) :
    slabLinks.Ring mem' list (free.map Extent.start) := by
  have member : b ∈ free ++ hand ++ live := by
    rw [append_assoc]
    exact mem_append_right _ hb
  have link : ∀ y ∈ list :: free.map Extent.start, ∀ j < 16, mem' (y + j) = mem (y + j) := by
    intro y hy j hj
    apply same
    intro has
    cases mem_cons.mp hy with
    | inl sentinel =>
      have := rep.below b member
      simp only [slabHeader, Extent.Has] at this has
      omega
    | inr node =>
      obtain ⟨c, hc, rfl⟩ := mem_map.mp node
      have ne : c ≠ b := fun eq => rep.listed_ne hc hb (congrArg _ eq)
      exact rep.outside member (by simp [hc]) ne hj has rfl
  exact rep.ring.congr (fun y hy => link y hy _ (by decide)) fun y hy => link y hy _ (by decide)

/-- The rest of a live block that is cut after `n` units is in hand. -/
theorem split {start n k : ℕ} (rep : SlabRep mem list R free hand (⟨start, n * slabUnit + k⟩ :: live))
    (hn : slabHeader ≤ n * slabUnit) (hk : slabHeader ≤ k) :
    SlabRep (((mem.setSize (start + n * slabUnit) (mem.size start - n)).setStatus
      (start + n * slabUnit) 0).setSize start n) list R free (⟨start + n * slabUnit, k⟩ :: hand)
      (⟨start, n * slabUnit⟩ :: live) := by
  have member : ⟨start, n * slabUnit + k⟩ ∈ free ++ hand ++ (⟨start, n * slabUnit + k⟩ :: live) := by
    simp
  simp only [slabHeader] at hn hk
  -- the three words written lie in the block that is cut
  have frame : ∀ a, ¬ Extent.Has ⟨start, n * slabUnit + k⟩ a →
      (((mem.setSize (start + n * slabUnit) (mem.size start - n)).setStatus
        (start + n * slabUnit) 0).setSize start n) a = mem a := by
    intro a ha
    simp only [Extent.Has] at ha
    simp only [Mem.setSize, Mem.setStatus]
    rw [update_of_ne (by omega), update_of_ne (by omega), update_of_ne (by omega)]
  have perm : (free ++ hand ++ (⟨start, n * slabUnit + k⟩ :: live)).Perm
      (⟨start, n * slabUnit + k⟩ :: (free ++ hand ++ live)) := perm_middle
  have perm' : (⟨start, n * slabUnit⟩ :: ⟨start + n * slabUnit, k⟩ :: (free ++ hand ++ live)).Perm
      (free ++ (⟨start + n * slabUnit, k⟩ :: hand) ++ (⟨start, n * slabUnit⟩ :: live)) :=
    .trans (.cons _ (perm_hand _ free hand live).symm) perm_middle.symm
  have others : ∀ c ∈ free ++ hand ++ live, c ∈ free ++ hand ++ (⟨start, n * slabUnit + k⟩ :: live) ∧
      c ≠ ⟨start, n * slabUnit + k⟩ := by
    intro c hc
    refine ⟨by simp at hc ⊢; tauto, fun eq => ?_⟩
    have nodup := (rep.partition.perm perm).nodup
    rw [map_cons, nodup_cons] at nodup
    exact nodup.1 (mem_map.mpr ⟨c, hc, by rw [eq]⟩)
  have total : mem start * slabUnit = n * slabUnit + k := rep.size _ member
  have cases' : ∀ c ∈ free ++ (⟨start + n * slabUnit, k⟩ :: hand) ++ (⟨start, n * slabUnit⟩ :: live),
      c = ⟨start, n * slabUnit⟩ ∨ c = ⟨start + n * slabUnit, k⟩ ∨ c ∈ free ++ hand ++ live := by
    intro c hc
    simpa using perm'.mem_iff.mpr hc
  refine ⟨?_, rep.bounded, fun c hc => ?_, fun c hc => ?_, fun c hc => ?_, fun c hc => ?_, ?_⟩
  · exact ((Partition.split_iff (by omega) (by omega)).mp (rep.partition.perm perm)).perm perm'
  · obtain rfl | rfl | old := cases' c hc
    exacts [hn, hk, rep.header c (others c old).1]
  · have low := rep.below _ member
    obtain rfl | rfl | old := cases' c hc
    · exact low
    · simp only at low ⊢
      omega
    · exact rep.below c (others c old).1
  · obtain rfl | rfl | old := cases' c hc
    · simp [Mem.size, Mem.setSize]
    · simp only [Mem.size, Mem.setSize, Mem.setStatus]
      rw [update_of_ne (by omega), update_of_ne (by omega), update_self]
      simp only [slabUnit] at total ⊢
      omega
    · have kept := frame c.start fun has =>
        rep.outside member (others c old).1 (others c old).2 (j := 0) (by decide) has rfl
      rw [Mem.size, kept]
      exact rep.size c (others c old).1
  · cases mem_cons.mp hc with
    | inl own =>
      subst own
      simp only [Mem.status, Mem.setSize, Mem.setStatus]
      rw [update_of_ne (by omega), update_of_ne (by omega), update_of_ne (by omega)]
      exact rep.status ⟨start, n * slabUnit + k⟩ (by simp)
    | inr old =>
      have block := others c (by simp [old])
      rw [Mem.status, frame _ fun has => rep.outside member block.1 block.2 (by decide) has rfl]
      exact rep.status c (by simp [old])
  · exact rep.ring_inside (b := ⟨start, n * slabUnit + k⟩) (by simp) frame

theorem join {start m k : ℕ} (rep : SlabRep mem list R free (⟨start, m⟩ :: ⟨start + m, k⟩ :: hand) live) :
    SlabRep (mem.setSize start (mem.size (start + m) + mem.size start)) list R free
      (⟨start, m + k⟩ :: hand) live := by
  have first : ⟨start, m⟩ ∈ free ++ (⟨start, m⟩ :: ⟨start + m, k⟩ :: hand) ++ live := by simp
  have second : ⟨start + m, k⟩ ∈ free ++ (⟨start, m⟩ :: ⟨start + m, k⟩ :: hand) ++ live := by simp
  have positive := rep.partition.positive _ first
  have positive' := rep.partition.positive _ second
  have perm : (free ++ (⟨start, m⟩ :: ⟨start + m, k⟩ :: hand) ++ live).Perm
      (⟨start, m⟩ :: ⟨start + m, k⟩ :: (free ++ hand ++ live)) :=
    (perm_hand _ free _ live).trans (.cons _ (perm_hand _ free hand live))
  have perm' := (perm_hand ⟨start, m + k⟩ free hand live).symm
  have others : ∀ c ∈ free ++ hand ++ live, c ∈ free ++ (⟨start, m⟩ :: ⟨start + m, k⟩ :: hand) ++ live ∧
      c.start ≠ start := by
    intro c hc
    refine ⟨perm.mem_iff.mpr (by simp only [mem_cons]; tauto), fun eq => ?_⟩
    have nodup := (rep.partition.perm perm).nodup
    rw [map_cons, nodup_cons] at nodup
    exact nodup.1 (mem_cons_of_mem _ (mem_map.mpr ⟨c, hc, eq⟩))
  have cases' : ∀ c ∈ free ++ (⟨start, m + k⟩ :: hand) ++ live,
      c = ⟨start, m + k⟩ ∨ c ∈ free ++ hand ++ live := by
    intro c hc
    simpa using perm'.mem_iff.mpr hc
  refine ⟨?_, rep.bounded, fun c hc => ?_, fun c hc => ?_, fun c hc => ?_, fun c hc => ?_, ?_⟩
  · exact ((Partition.split_iff positive positive').mpr (rep.partition.perm perm)).perm perm'
  · have enough := rep.header _ first
    obtain rfl | old := cases' c hc
    · simp only at enough ⊢
      omega
    · exact rep.header c (others c old).1
  · obtain rfl | old := cases' c hc
    exacts [rep.below ⟨start, m⟩ first, rep.below c (others c old).1]
  · obtain rfl | old := cases' c hc
    · have left := rep.size _ first
      have right := rep.size _ second
      simp only [Mem.size, Mem.setSize, update_self] at left right ⊢
      rw [Nat.add_mul, left, right, Nat.add_comm]
    · rw [Mem.size, Mem.setSize, update_of_ne (others c old).2]
      exact rep.size c (others c old).1
  · have block := others c (by simp [hc])
    have ne : c.start + 4 ≠ start := rep.word_ne block.1 first (j := 0) (by decide) (by decide) (by decide)
    rw [Mem.status, Mem.setSize, update_of_ne ne]
    exact rep.status c hc
  · exact rep.ring_update (rep.word_ne_link first (k := 0) (by decide))

theorem adopt (rep : SlabRep mem list R free hand live) {v : ℕ} (size : v * slabUnit = b.len)
    (header : slabHeader ≤ b.len) (below : list + slabHeader ≤ b.start)
    (bounded : b.start + b.len ≤ kernelPages * pageSize4MB) (outside : ∀ a, b.Has a → ¬ R a) :
    SlabRep (mem.setSize b.start v) list (fun a => b.Has a ∨ R a) free (b :: hand) live := by
  have positive : 0 < b.len := by
    simp only [slabHeader] at header
    omega
  have perm := (perm_hand b free hand live).symm
  have apart : ∀ c ∈ free ++ hand ++ live, ∀ j < 16, c.start + j ≠ b.start := by
    intro c hc j hj same
    have large := rep.header c hc
    simp only [slabHeader] at large
    exact outside b.start ⟨le_rfl, by omega⟩
      ((rep.partition.cover _).mpr ⟨c, hc, by unfold Extent.Has; omega⟩)
  have cases' : ∀ c ∈ free ++ (b :: hand) ++ live, c = b ∨ c ∈ free ++ hand ++ live := by
    intro c hc
    simpa using perm.mem_iff.mpr hc
  refine ⟨(rep.partition.cons positive outside).perm perm, fun a ha => ?_, fun c hc => ?_,
    fun c hc => ?_, fun c hc => ?_, fun c hc => ?_, ?_⟩
  · cases ha with
    | inl new => exact new.2.trans_le bounded
    | inr old => exact rep.bounded a old
  · obtain rfl | old := cases' c hc
    exacts [header, rep.header c old]
  · obtain rfl | old := cases' c hc
    exacts [below, rep.below c old]
  · obtain rfl | old := cases' c hc
    · rw [Mem.size, Mem.setSize, update_self, size]
    · have ne : c.start ≠ b.start := apart c old 0 (by decide)
      rw [Mem.size, Mem.setSize, update_of_ne ne]
      exact rep.size c old
  · rw [Mem.status, Mem.setSize, update_of_ne (apart c (by simp [hc]) 4 (by decide))]
    exact rep.status c hc
  · apply rep.ring_update
    intro y hy
    simp only [slabHeader] at below
    cases mem_cons.mp hy with
    | inl sentinel =>
      simp only [slabLinks]
      omega
    | inr node =>
      obtain ⟨c, hc, rfl⟩ := mem_map.mp node
      exact ⟨(apart c (by simp [hc]) _ (by decide)).symm, (apart c (by simp [hc]) _ (by decide)).symm⟩

end SlabRep

/-! ## The loop over the free list -/

theorem slabSearch_seg (test : Extent → Bool) (test' : ℕ → Bool) {rest : List Extent} {fuel start : ℕ}
    (seg : slabLinks.Seg mem start (rest.map Extent.start) list)
    (sentinel : list ∉ rest.map Extent.start) (agree : ∀ b ∈ rest, test' b.start = test b)
    (enough : rest.length < fuel) :
    slabSearch mem list test' fuel (mem.next start) = .ok ((rest.find? test).map Extent.start) := by
  induction rest generalizing fuel start with
  | nil =>
    obtain ⟨fuel, rfl⟩ := Nat.exists_eq_succ_of_ne_zero (by omega : fuel ≠ 0)
    have next : mem.next start = list := seg.1
    rw [slabSearch, next, if_pos rfl]
    rfl
  | cons b rest ih =>
    obtain ⟨fuel, rfl⟩ := Nat.exists_eq_succ_of_ne_zero (by omega : fuel ≠ 0)
    have next : mem.next start = b.start := seg.1.1
    simp only [map_cons, mem_cons, not_or] at sentinel
    rw [slabSearch, next, if_neg (Ne.symm sentinel.1), agree b (by simp)]
    cases found : test b with
    | true => simp [found]
    | false =>
      rw [if_neg (by decide), ih seg.2 sentinel.2 (fun c hc => agree c (mem_cons_of_mem _ hc))
        (by simp only [length_cons] at enough; omega)]
      simp [found]

/-- What is left of a block after the first `n` units. -/
def remainder (b : Extent) (n : ℕ) : List Extent :=
  if b.len = n * slabUnit then [] else [⟨b.start + n * slabUnit, b.len - n * slabUnit⟩]

namespace SlabRep

theorem length_lt (rep : SlabRep mem list R free hand live) : free.length < slabFuel := by
  have short := rep.partition.length_le rep.bounded
  simp only [length_append] at short
  exact Nat.lt_succ_of_le (by omega)

theorem search (rep : SlabRep mem list R free hand live) (test : Extent → Bool) (test' : ℕ → Bool)
    (agree : ∀ b ∈ free, test' b.start = test b) :
    slabSearch mem list test' slabFuel (mem.next list) = .ok ((free.find? test).map Extent.start) :=
  slabSearch_seg test test' rep.ring.seg (nodup_cons.mp rep.ring.nodup).1 agree rep.length_lt

theorem firstFit_spec {heap : Heap} (rep : SlabRep heap.mem heap.slabFreeList R free hand live) (sizeN : ℕ) :
    firstFit heap sizeN = .ok ((free.find? fun b => sizeN * slabUnit ≤ b.len).map Extent.start) := by
  apply rep.search
  intro b hb
  have := rep.size b (by simp [hb])
  simp only [slabUnit] at this ⊢
  rw [← this]
  simp

/-- `slab_alloc` takes a block it has found, provided the rest it may leave is not a single
    unit. -/
theorem take {n : ℕ} (rep : SlabRep mem list R (left ++ b :: right) hand live)
    (hn : slabHeader ≤ n * slabUnit) (fits : n * slabUnit ≤ b.len)
    (sliver : b.len ≠ (n + 1) * slabUnit) :
    SlabRep (slabTake mem list b.start n) list R (left ++ right ++ remainder b n) hand
      (⟨b.start, n * slabUnit⟩ :: live) := by
  have taken := rep.remove.allocate
  have size := taken.size b (by simp)
  obtain ⟨start, len⟩ := b
  by_cases whole : len = n * slabUnit
  · have units : ((slabListRemove mem start).setStatus start 1).size start = n := by
      simp only [slabUnit] at size whole
      omega
    rw [slabTake, if_pos units, remainder, if_pos whole, append_nil]
    subst whole
    exact taken
  · have units : ((slabListRemove mem start).setStatus start 1).size start ≠ n := by
      intro same
      rw [same] at size
      exact whole size.symm
    obtain ⟨k, rfl⟩ := Nat.exists_eq_add_of_le fits
    have enough : slabHeader ≤ k := by
      simp only [slabUnit, slabHeader] at size sliver whole ⊢
      omega
    rw [slabTake, if_neg units, remainder, if_neg whole, Nat.add_sub_cancel_left]
    exact (taken.split hn enough).push

end SlabRep

/-! ## Merging -/

/-- The test of `_slab_free` on blocks. -/
def touching (b s : Extent) : Bool :=
  (s.start + s.len = b.start || b.start + b.len = s.start) &&
    (s.start % pageSize4MB ≠ 0 || b.start % pageSize4MB ≠ 0)

def joined (s b : Extent) : Extent := ⟨min s.start b.start, s.len + b.len⟩

/-- What `_slab_free` does to the list of free blocks and the block in hand, one merge for
    each unit of the first argument. -/
def coalesce : ℕ → List Extent → Extent → List Extent × Extent
  | 0, free, b => (free, b)
  | n + 1, free, b =>
    match free.find? (touching b) with
    | none => (free, b)
    | some s => coalesce n (free.erase s) (joined s b)

abbrev rejoin (free : List Extent) (b : Extent) : List Extent × Extent := coalesce free.length free b

/-- The word at `a` is neither the size nor a link in a header at one of `starts`. -/
def Quiet (starts : List ℕ) (a : ℕ) : Prop :=
  ∀ y ∈ starts, a ≠ y ∧ a ≠ y + slabLinks.next ∧ a ≠ y + slabLinks.last

theorem Quiet.mono {starts starts' : List ℕ} {a : ℕ} (quiet : Quiet starts a)
    (subset : starts' ⊆ starts) : Quiet starts' a :=
  fun y hy => quiet y (subset hy)

theorem Quiet.blocks {blocks blocks' : List Extent} {a : ℕ}
    (quiet : Quiet (list :: blocks.map Extent.start) a) (subset : blocks' ⊆ blocks) :
    Quiet (list :: blocks'.map Extent.start) a :=
  quiet.mono (cons_subset_cons _ (map_subset _ subset))

namespace SlabRep

/-- The status of a block is neither the size nor a link of a block. -/
theorem status_quiet (rep : SlabRep mem list R free hand live) (hb : b ∈ free ++ hand ++ live) :
    Quiet (list :: (free ++ hand ++ live).map Extent.start) (b.start + 4) := by
  intro y hy
  cases mem_cons.mp hy with
  | inl sentinel =>
    subst sentinel
    exact ⟨rep.sentinel_ne hb (j := 0) (by decide), rep.sentinel_ne hb (by decide),
      rep.sentinel_ne hb (by decide)⟩
  | inr node =>
    obtain ⟨c, hc, rfl⟩ := mem_map.mp node
    have word : ∀ j < 16, 4 ≠ j → b.start + 4 ≠ c.start + j := fun j =>
      rep.word_ne hb hc (by decide)
    exact ⟨word 0 (by decide) (by decide), word 12 (by decide) (by decide), word 8 (by decide) (by decide)⟩

theorem push_quiet (rep : SlabRep mem list R free hand live) {a : ℕ}
    (quiet : Quiet (list :: (free ++ [b]).map Extent.start) a) :
    slabListPush mem list b.start a = mem a := by
  refine rep.ring.pushBack_of_ne fun y hy => (quiet y ?_).2
  simp only [map_append, map_cons, map_nil, mem_cons, mem_append] at hy ⊢
  tauto

end SlabRep

theorem joined_start (s b : Extent) : (joined s b).start = s.start ∨ (joined s b).start = b.start := by
  simp only [joined]
  omega

namespace SlabRep

theorem mergeOne (rep : SlabRep mem list R (left ++ s :: right) (b :: hand) live)
    (touch : touching b s = true) :
    SlabRep ((slabListRemove mem s.start).setSize (joined s b).start
      ((slabListRemove mem s.start).size s.start + (slabListRemove mem s.start).size b.start)) list R
      (left ++ right) (joined s b :: hand) live := by
  have removed := rep.remove
  obtain ⟨start, len⟩ := s
  obtain ⟨start', len'⟩ := b
  have positive := rep.partition.positive ⟨start, len⟩ (by simp)
  have positive' := rep.partition.positive ⟨start', len'⟩ (by simp)
  simp only [touching, Bool.and_eq_true, Bool.or_eq_true, decide_eq_true_eq] at touch positive positive'
  cases touch.1 with
  | inl after =>
    -- `s` ends where `b` starts
    subst after
    have lower : joined ⟨start, len⟩ ⟨start + len, len'⟩ = ⟨start, len + len'⟩ := by simp [joined]
    rw [lower, Nat.add_comm (Mem.size _ start)]
    exact removed.join
  | inr before =>
    subst before
    have lower : joined ⟨start' + len', len⟩ ⟨start', len'⟩ = ⟨start', len' + len⟩ := by
      simp [joined, Nat.add_comm]
    rw [lower]
    have swapped := removed.transfer (((List.Perm.swap _ _ hand).append_left _).append_right live)
      (fun _ _ => rfl) removed.status removed.ring
    exact swapped.join

/-- One merge writes the links of the list and one size. -/
theorem mergeOne_quiet (rep : SlabRep mem list R (left ++ s :: right) hand live) {v a : ℕ}
    (quiet : Quiet (list :: ((left ++ s :: right) ++ [b]).map Extent.start) a) :
    (slabListRemove mem s.start).setSize (joined s b).start v a = mem a := by
  have size : a ≠ (joined s b).start := by
    cases joined_start s b with
    | inl first =>
      rw [first]
      exact (quiet s.start (by simp)).1
    | inr second =>
      rw [second]
      exact (quiet b.start (by simp)).1
  rw [Mem.setSize, update_of_ne size]
  exact rep.ring.unlink_of_ne (by simp) fun y hy =>
    (quiet y (by simp only [map_append, mem_cons, mem_append] at hy ⊢; tauto)).2

/-- `_slab_free` coalesces, and leaves the words alone that are no sizes or links. -/
theorem merge (depth : ℕ) (rep : SlabRep mem list R free (b :: hand) live) (enough : free.length < depth) :
    ∃ mem', slabMerge list depth mem b.start = .ok (mem', (coalesce free.length free b).2.start) ∧
      SlabRep mem' list R (coalesce free.length free b).1 ((coalesce free.length free b).2 :: hand) live ∧
      ∀ a, Quiet (list :: (free ++ [b]).map Extent.start) a → mem' a = mem a := by
  induction depth generalizing mem free b with
  | zero => omega
  | succ depth ih =>
    have size : ∀ c ∈ free ++ b :: hand ++ live, mem.size c.start * slabUnit = c.len := rep.size
    have found := rep.search (touching b) (mergeable mem b.start) fun s hs => by
      simp only [mergeable, touching, size s (by simp [hs]), size b (by simp)]
    rw [slabMerge, found, ok_bind]
    cases pick : free.find? (touching b) with
    | none =>
      have done : coalesce free.length free b = (free, b) := by
        cases free.length with
        | zero => rfl
        | succ n => rw [coalesce, pick]
      rw [done]
      exact ⟨mem, rfl, rep, fun _ _ => rfl⟩
    | some s =>
      obtain ⟨touch, left, right, rfl, before⟩ := find?_eq_some_iff_append.mp pick
      have notBefore : s ∉ left := fun hs => by simpa [touch] using before s hs
      have length : (left ++ s :: right).length = (left ++ right).length + 1 := by simp [Nat.add_assoc]
      have erased : (left ++ s :: right).erase s = left ++ right := by
        rw [erase_append_right _ notBefore, erase_cons_head]
      have step : coalesce (left ++ s :: right).length (left ++ s :: right) b =
          coalesce (left ++ right).length (left ++ right) (joined s b) := by
        rw [length, coalesce, pick]
        simp only [erased]
      rw [step]
      obtain ⟨mem', result, rep', same⟩ := ih (rep.mergeOne touch) (by omega)
      -- the blocks that remain start where a block started before
      have starts : list :: ((left ++ right) ++ [joined s b]).map Extent.start ⊆
          list :: ((left ++ s :: right) ++ [b]).map Extent.start := by
        intro y hy
        simp only [map_append, map_cons, map_nil, mem_cons, mem_append, not_mem_nil, or_false] at hy ⊢
        cases joined_start s b with
        | inl first =>
          rw [first] at hy
          tauto
        | inr second =>
          rw [second] at hy
          tauto
      refine ⟨mem', ?_, rep', fun a quiet => ?_⟩
      · by_cases larger : s.start > b.start
        · have lower : (joined s b).start = b.start := Nat.min_eq_right larger.le
          rw [lower] at result
          simpa only [Option.map_some, if_pos larger] using result
        · have lower : (joined s b).start = s.start := Nat.min_eq_left (Nat.le_of_not_lt larger)
          rw [lower] at result
          simpa only [Option.map_some, if_neg larger] using result
      · rw [same a (quiet.mono starts)]
        exact rep.mergeOne_quiet quiet

end SlabRep

end Illinix.Verified.Slab
