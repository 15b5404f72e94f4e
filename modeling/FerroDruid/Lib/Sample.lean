import Mathlib.Data.Finset.Sort
import Mathlib.Order.Interval.Finset.Fin
/-!
# The least elements of a set

A sample of a set keeps its elements below a bound. It starts from a bound that
is given, and a sample that is too large drops its largest element, which is the
bound from then on. Two samples of one set with one budget are the same, so it
does not matter how the set was put together. Samples without a budget are closed
under the operations on sets.
-/

namespace FerroDruid.Lib

variable {α : Type*} [LinearOrder α] {n : ℕ} {u v s t : Finset α} {a b c d : α}

/-- The elements of `u` below `b`, where `b` is `c` or was dropped when there
were more than `n`. -/
structure IsSample (n : ℕ) (u : Finset α) (c : α) (s : Finset α) (b : α) : Prop where
  elements : s = u.filter (· < b)
  le : b ≤ c
  full : b = c ∨ b ∈ u ∧ n ≤ s.card

namespace IsSample

theorem mem_iff (h : IsSample n u c s b) {x : α} : x ∈ s ↔ x ∈ u ∧ x < b := by rw [h.elements, Finset.mem_filter]

theorem self (h : ∀ x ∈ u, x < c) : IsSample n u c u c where
  elements := (Finset.filter_true_of_mem h).symm
  le := le_rfl
  full := .inl rfl

section

variable (h : IsSample n u c s b)

include h

/-- A bound that was dropped was below the other bound, with `n` elements below it. -/
theorem bound_le (h' : IsSample n u c t d) (ht : t.card ≤ n) : d ≤ b := by
  rcases h.full with rfl | ⟨hb, hn⟩
  · exact h'.le
  · by_contra hlt
    rw [not_le] at hlt
    have hsub : insert b s ⊆ t := by
      intro x hx
      rw [h'.mem_iff]
      rcases Finset.mem_insert.1 hx with rfl | hx
      · exact ⟨hb, hlt⟩
      · obtain ⟨hu, hxb⟩ := h.mem_iff.1 hx
        exact ⟨hu, hxb.trans hlt⟩
    have hcard := Finset.card_le_card hsub
    rw [Finset.card_insert_of_notMem fun hmem => lt_irrefl b (h.mem_iff.1 hmem).2] at hcard
    omega

/-- Samples of one set within one budget are the same. -/
theorem unique (h' : IsSample n u c t d) (hs : s.card ≤ n) (ht : t.card ≤ n) : s = t ∧ b = d := by
  have hbd : b = d := le_antisymm (h'.bound_le h hs) (h.bound_le h' ht)
  refine ⟨?_, hbd⟩
  rw [h.elements, h'.elements, hbd]

/-- Nothing is dropped when there are no more than `n`. -/
theorem eq_of_card_le (hn : (u.filter (· < c)).card ≤ n) : s = u.filter (· < c) ∧ b = c := by
  have hself : IsSample n u c (u.filter (· < c)) c := ⟨rfl, le_rfl, .inl rfl⟩
  have hsub : s ⊆ u.filter (· < c) := fun x hx => by
    obtain ⟨hu, hxb⟩ := h.mem_iff.1 hx
    exact Finset.mem_filter.2 ⟨hu, hxb.trans_le h.le⟩
  exact h.unique hself ((Finset.card_le_card hsub).trans hn) hn

/-- As many are left as there were, or `n`. -/
theorem min_le_card : min n (u.filter (· < c)).card ≤ s.card := by
  rcases h.full with rfl | ⟨-, hn⟩
  · rw [h.elements]
    exact min_le_right _ _
  · exact (min_le_left _ _).trans hn

theorem nonempty (hn : 0 < n) (hu : (u.filter (· < c)).Nonempty) : s.Nonempty := by
  have := h.min_le_card
  rw [← Finset.card_pos] at hu ⊢
  omega

/-- What is below both bounds is a sample of both sets. -/
theorem union (h' : IsSample n v d t a) :
    IsSample n (u ∪ v) (min c d) ((s ∪ t).filter (· < min b a)) (min b a) := by
  have hmem : ∀ x, x ∈ (s ∪ t).filter (· < min b a) ↔ x ∈ (u ∪ v).filter (· < min b a) := by
    intro x
    simp only [Finset.mem_filter, Finset.mem_union, h.mem_iff, h'.mem_iff, lt_min_iff]
    tauto
  refine ⟨Finset.ext hmem, min_le_min h.le h'.le, ?_⟩
  -- the elements of the side with the lower bound are all kept
  have hleft : b ≤ a → s ⊆ (s ∪ t).filter (· < min b a) := fun hle x hx => by
    rw [min_eq_left hle]
    exact Finset.mem_filter.2 ⟨Finset.mem_union_left _ hx, (h.mem_iff.1 hx).2⟩
  have hright : a ≤ b → t ⊆ (s ∪ t).filter (· < min b a) := fun hle x hx => by
    rw [min_eq_right hle]
    exact Finset.mem_filter.2 ⟨Finset.mem_union_right _ hx, (h'.mem_iff.1 hx).2⟩
  rcases le_total b a with hle | hle
  · rcases h.full with rfl | ⟨hb, hn⟩
    · exact .inl (by rw [min_eq_left hle, min_eq_left (hle.trans h'.le)])
    · refine .inr ⟨?_, hn.trans (Finset.card_le_card (hleft hle))⟩
      rw [min_eq_left hle]
      exact Finset.mem_union_left _ hb
  · rcases h'.full with rfl | ⟨ha, hn⟩
    · exact .inl (by rw [min_eq_right hle, min_eq_right (hle.trans h.le)])
    · refine .inr ⟨?_, hn.trans (Finset.card_le_card (hright hle))⟩
      rw [min_eq_right hle]
      exact Finset.mem_union_right _ ha

/-- The largest element of a sample that is too large is dropped. -/
theorem erase_max (hs : s.Nonempty) (hn : n < s.card) : IsSample n u c (s.erase (s.max' hs)) (s.max' hs) := by
  obtain ⟨hu, hb⟩ := h.mem_iff.1 (s.max'_mem hs)
  refine ⟨?_, hb.le.trans h.le, .inr ⟨hu, ?_⟩⟩
  · ext x
    rw [Finset.mem_erase, Finset.mem_filter, h.mem_iff]
    constructor
    · rintro ⟨hne, hxu, hxb⟩
      exact ⟨hxu, lt_of_le_of_ne (s.le_max' x (h.mem_iff.2 ⟨hxu, hxb⟩)) hne⟩
    · rintro ⟨hxu, hlt⟩
      exact ⟨hlt.ne, hxu, hlt.trans hb⟩
  · rw [Finset.card_erase_of_mem (s.max'_mem hs)]
    omega

end

end IsSample

/-! ## The sample that a budget gives -/

/-- What is below `c`, or below the element after the least `n` of it. -/
def bottom (n : ℕ) (u : Finset α) (c : α) : Finset α × α :=
  if h : n < (u.filter (· < c)).card then
    let b := (u.filter (· < c)).orderEmbOfFin rfl ⟨n, h⟩
    (u.filter (· < b), b)
  else (u.filter (· < c), c)

theorem card_lt_orderEmbOfFin (s : Finset α) (i : Fin s.card) : (s.filter (· < s.orderEmbOfFin rfl i)).card = i := by
  have himage : s.filter (· < s.orderEmbOfFin rfl i) = (Finset.Iio i).map (s.orderEmbOfFin rfl).toEmbedding := by
    ext x
    rw [Finset.mem_filter, Finset.mem_map]
    constructor
    · rintro ⟨hx, hlt⟩
      obtain ⟨j, rfl⟩ : x ∈ Set.range (s.orderEmbOfFin rfl) := by rwa [Finset.range_orderEmbOfFin]
      exact ⟨j, Finset.mem_Iio.2 ((s.orderEmbOfFin rfl).lt_iff_lt.1 hlt), rfl⟩
    · rintro ⟨j, hj, rfl⟩
      exact ⟨Finset.orderEmbOfFin_mem s rfl j, (s.orderEmbOfFin rfl).lt_iff_lt.2 (Finset.mem_Iio.1 hj)⟩
  rw [himage, Finset.card_map, Fin.card_Iio]

theorem isSample_bottom (n : ℕ) (u : Finset α) (c : α) : IsSample n u c (bottom n u c).1 (bottom n u c).2 ∧ (bottom n u c).1.card ≤ n := by
  unfold bottom
  split_ifs with h
  · have hmem := Finset.orderEmbOfFin_mem (u.filter (· < c)) rfl ⟨n, h⟩
    have hcount := card_lt_orderEmbOfFin (u.filter (· < c)) ⟨n, h⟩
    generalize (u.filter (· < c)).orderEmbOfFin rfl ⟨n, h⟩ = b at hmem hcount
    rw [Finset.mem_filter] at hmem
    have hcard : (u.filter (· < b)).card = n := by
      refine Eq.trans ?_ hcount
      rw [Finset.filter_filter]
      exact congrArg Finset.card (Finset.filter_congr fun x _ => ⟨fun hx => ⟨hx.trans hmem.2, hx⟩, And.right⟩)
    exact ⟨⟨rfl, hmem.2.le, .inr ⟨hmem.1, hcard.ge⟩⟩, hcard.le⟩
  · exact ⟨⟨rfl, le_rfl, .inl rfl⟩, not_lt.1 h⟩

/-- A sample within its budget is the one that the budget gives. -/
theorem IsSample.eq_bottom (h : IsSample n u c s b) (hs : s.card ≤ n) : (s, b) = bottom n u c := by
  obtain ⟨hbottom, hcard⟩ := isSample_bottom n u c
  obtain ⟨helements, hbound⟩ := h.unique hbottom hs hcard
  exact Prod.ext helements hbound

/-! ## A set below a bound -/

/-- All elements of `X` below `b`. -/
def IsBelow (X : Set α) (b : α) (s : Finset α) : Prop := ∀ x, x ∈ s ↔ x ∈ X ∧ x < b

namespace IsBelow

variable {X Y : Set α}

theorem empty (b : α) : IsBelow ∅ b ∅ := fun x => by simp

/-- Two sets differ from what is below a bound in the same way if they agree there. -/
theorem congr_iff (h : IsBelow X b s) : IsBelow Y b s ↔ ∀ x, x < b → (x ∈ Y ↔ x ∈ X) := by
  constructor
  · intro h' x hx
    have heq := (h' x).symm.trans (h x)
    simpa only [hx, and_true] using heq
  · intro hagree x
    rw [h x]
    exact and_congr_left fun hx => (hagree x hx).symm

theorem union (h : IsBelow X b s) (h' : IsBelow Y c t) : IsBelow (X ∪ Y) (min b c) ((s ∪ t).filter (· < min b c)) := by
  intro x
  rw [Finset.mem_filter, Finset.mem_union, h x, h' x, Set.mem_union, lt_min_iff]
  tauto

theorem inter (h : IsBelow X b s) (h' : IsBelow Y c t) : IsBelow (X ∩ Y) (min b c) (s.filter fun x => x ∈ t ∧ x < min b c) := by
  intro x
  rw [Finset.mem_filter, h x, h' x, Set.mem_inter_iff, lt_min_iff]
  tauto

theorem sdiff (h : IsBelow X b s) (h' : IsBelow Y c t) : IsBelow (X \ Y) (min b c) (s.filter fun x => x ∉ t ∧ x < min b c) := by
  intro x
  rw [Finset.mem_filter, h x, h' x, Set.mem_sdiff, lt_min_iff]
  tauto

/-- A sample of what is below a bound is what is below its own. -/
theorem of_isSample (h : IsBelow X c u) (hs : IsSample n u c s b) : IsBelow X b s := by
  intro x
  rw [hs.mem_iff, h x]
  constructor
  · exact fun hx => ⟨hx.1.1, hx.2⟩
  · exact fun hx => ⟨⟨hx.1, hx.2.trans_le hs.le⟩, hx.2⟩

end IsBelow

end FerroDruid.Lib
