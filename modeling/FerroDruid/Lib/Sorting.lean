import Mathlib.Data.List.Sort
/-!
# Sorting part of a type

An order that is total and transitive among some values only sorts the lists of
those. Comparisons by several keys, each one way or the other.
-/

namespace FerroDruid.Lib

open List

section

variable {α β : Type}

section

variable {r : α → α → Prop} [DecidableRel r] {P : α → Prop}
  (htotal : ∀ a b, P a → P b → r a b ∨ r b a) (htrans : ∀ a b c, P a → P b → P c → r a b → r b c → r a c)
include htotal htrans

theorem pairwise_orderedInsert_of {a : α} {l : List α} (ha : P a) (hl : ∀ b ∈ l, P b) (h : l.Pairwise r) : (l.orderedInsert r a).Pairwise r := by
  induction l with
  | nil => exact pairwise_singleton _ _
  | cons b l ih =>
    obtain ⟨hb, hrest⟩ := forall_mem_cons.1 hl
    obtain ⟨hbl, hl'⟩ := pairwise_cons.1 h
    rw [orderedInsert_cons]
    split_ifs with hab
    · refine pairwise_cons.2 ⟨fun c hc => ?_, h⟩
      rcases mem_cons.1 hc with rfl | hc
      · exact hab
      · exact htrans a b c ha hb (hrest c hc) hab (hbl c hc)
    · refine pairwise_cons.2 ⟨fun c hc => ?_, ih hrest hl'⟩
      rcases (mem_orderedInsert r).1 hc with rfl | hc
      · exact (htotal c b ha hb).resolve_left hab
      · exact hbl c hc

theorem pairwise_insertionSort_of {l : List α} (hl : ∀ b ∈ l, P b) : (l.insertionSort r).Pairwise r := by
  induction l with
  | nil => exact List.Pairwise.nil
  | cons a l ih =>
    obtain ⟨ha, hl'⟩ := forall_mem_cons.1 hl
    exact pairwise_orderedInsert_of htotal htrans ha (fun b hb => hl' b ((mem_insertionSort r).1 hb)) (ih hl')

end

/-! ## Several keys -/

/-- By some keys in order, each ascending or not. -/
def compareBy {κ ν : Type} (cmp : ν → ν → Ordering) (value : κ → α → ν) : List (κ × Bool) → α → α → Ordering
  | [], _, _ => .eq
  | (key, asc) :: keys, a, b =>
    let ord := cmp (value key a) (value key b)
    (if asc then ord else ord.swap).then (compareBy cmp value keys a b)

variable {κ κ' ν : Type} {cmp cmp' : ν → ν → Ordering}

theorem transCmp_compareBy [Std.TransCmp cmp] (value : κ → α → ν) (keys : List (κ × Bool)) : Std.TransCmp (compareBy cmp value keys) := by
  induction keys with
  | nil => exact { eq_swap := rfl, isLE_trans := fun _ _ => rfl }
  | cons key keys ih =>
    have hfirst : Std.TransCmp fun a b : α => if key.2 then cmp (value key.1 a) (value key.1 b) else (cmp (value key.1 a) (value key.1 b)).swap := by
      have hon : Std.TransCmp fun a b : α => cmp (value key.1 a) (value key.1 b) :=
        { eq_swap := Std.OrientedCmp.eq_swap, isLE_trans := Std.TransCmp.isLE_trans }
      cases key.2 with
      | true => exact hon
      | false =>
        have hopposite := @Std.TransCmp.opposite _ _ hon
        refine cast (congrArg _ (funext fun a => funext fun b => ?_)) hopposite
        exact @Std.OrientedCmp.eq_swap _ cmp _ _ _
    exact inferInstanceAs (Std.TransCmp (compareLex _ _))

variable {value : κ → α → ν}

/-- What is compared through a function, with keys that stand for each other. -/
theorem compareBy_congr {value' : κ' → β → ν} {keys : List (κ × Bool)} {keys' : List (κ' × Bool)} {a b : α} {a' b' : β}
    (h : List.Forall₂ (fun key key' => key.2 = key'.2 ∧ value key.1 a = value' key'.1 a' ∧ value key.1 b = value' key'.1 b') keys keys') :
    compareBy cmp value keys a b = compareBy cmp value' keys' a' b' := by
  induction h with
  | nil => rfl
  | cons hkey _ ih => rw [compareBy, compareBy, hkey.1, hkey.2.1, hkey.2.2, ih]

/-- Comparisons that agree on the values there are. -/
theorem compareBy_congr_cmp {keys : List (κ × Bool)} {a b : α}
    (h : ∀ key, cmp (value key a) (value key b) = cmp' (value key a) (value key b)) : compareBy cmp value keys a b = compareBy cmp' value keys a b := by
  induction keys with
  | nil => rfl
  | cons key keys ih => rw [compareBy, compareBy, h, ih]

/-- Sorting by keys, when the comparison is a proper one on the values there are. -/
theorem pairwise_sort_compareBy [Std.TransCmp cmp'] {P : ν → Prop} (hagree : ∀ x y, P x → P y → cmp x y = cmp' x y)
    {l : List α} (hl : ∀ a ∈ l, ∀ key, P (value key a)) (keys : List (κ × Bool)) :
    (l.insertionSort fun a b => compareBy cmp value keys a b ≠ .gt).Pairwise fun a b => compareBy cmp value keys a b ≠ .gt := by
  have htrans : Std.TransCmp (compareBy cmp' value keys) := transCmp_compareBy value keys
  have hsame : ∀ a b, (∀ key, P (value key a)) → (∀ key, P (value key b)) → compareBy cmp value keys a b = compareBy cmp' value keys a b :=
    fun a b ha hb => compareBy_congr_cmp fun key => hagree _ _ (ha key) (hb key)
  have hle : ∀ o : Ordering, o ≠ .gt ↔ o.isLE = true := fun o => by cases o <;> simp
  refine pairwise_insertionSort_of (P := fun a => ∀ key, P (value key a)) (fun a b ha hb => ?_) (fun a b c ha hb hc hab hbc => ?_) hl
  · rw [hsame a b ha hb, hsame b a hb ha, htrans.eq_swap (a := a) (b := b)]
    cases compareBy cmp' value keys b a <;> simp
  · rw [hsame _ _ ha hb, hle] at hab
    rw [hsame _ _ hb hc, hle] at hbc
    rw [hsame _ _ ha hc, hle]
    exact htrans.isLE_trans hab hbc

end

/-! ## What a sort promises

`sort_by` rearranges a list. The result is in order if the comparison is a
proper one on the list, and any rearrangement if it is not. Ties are left as
they were, which tells nothing where the list comes out of a hash map. -/

variable {α : Type}

/-- The comparison is a total order on the elements, up to ties. -/
structure Proper (cmp : α → α → Ordering) (l : List α) : Prop where
  swap : ∀ a ∈ l, ∀ b ∈ l, cmp a b = (cmp b a).swap
  trans : ∀ a ∈ l, ∀ b ∈ l, ∀ c ∈ l, cmp a b ≠ .gt → cmp b c ≠ .gt → cmp a c ≠ .gt

structure SortedBy (cmp : α → α → Ordering) (input output : List α) : Prop where
  perm : output.Perm input
  sorted : Proper cmp input → output.Pairwise fun a b => cmp a b ≠ .gt

variable {cmp : α → α → Ordering} {l l' l'' : List α}

theorem Proper.map_iff {β : Type} (f : β → α) {l : List β} : Proper cmp (l.map f) ↔ Proper (fun a b => cmp (f a) (f b)) l := by
  constructor
  · intro h
    exact ⟨fun a ha b hb => h.swap _ (mem_map_of_mem ha) _ (mem_map_of_mem hb),
      fun a ha b hb c hc => h.trans _ (mem_map_of_mem ha) _ (mem_map_of_mem hb) _ (mem_map_of_mem hc)⟩
  · intro h
    refine ⟨?_, ?_⟩ <;> simp only [forall_mem_map]
    · exact h.swap
    · exact h.trans

theorem exists_perm_cons {α : Type} {l : List α} {a : α} (h : a ∈ l) : ∃ rest, (a :: rest).Perm l := by
  obtain ⟨before, later, rfl⟩ := append_of_mem h
  exact ⟨before ++ later, perm_middle.symm⟩

theorem sortedBy_of_not_proper (hnot : ¬ Proper cmp l) (hl : l'.Perm l) : SortedBy cmp l l' := ⟨hl, fun h => absurd h hnot⟩

/-- There is always a result. -/
theorem exists_sortedBy (cmp : α → α → Ordering) (l : List α) : ∃ sorted, SortedBy cmp l sorted := by
  by_cases h : Proper cmp l
  · refine ⟨l.insertionSort fun a b => cmp a b ≠ .gt, perm_insertionSort _ _, fun _ => ?_⟩
    refine pairwise_insertionSort_of (P := (· ∈ l)) (fun a b ha hb => ?_) (fun a b c ha hb hc => h.trans a ha b hb c hc) fun _ hb => hb
    rw [h.swap a ha b hb]
    cases cmp b a <;> simp
  · exact ⟨l, sortedBy_of_not_proper h (.refl _)⟩

variable {a : α}

theorem Proper.self (h : Proper cmp l) (ha : a ∈ l) : cmp a a = .eq := by
  have hswap := h.swap a ha a ha
  cases hcmp : cmp a a <;> rw [hcmp] at hswap <;> first | rfl | cases hswap

/-! ## Ranks -/

/-- How many elements come before. -/
def rankIn (cmp : α → α → Ordering) (l : List α) (a : α) : ℕ := l.countP (cmp · a = .lt)

/-- What comes before an element comes before all that are no earlier. -/
theorem Proper.lt_of_lt_of_le (h : Proper cmp l) {x b : α} (hx : x ∈ l) (ha : a ∈ l) (hb : b ∈ l) (hxa : cmp x a = .lt) (hab : cmp a b ≠ .gt) :
    cmp x b = .lt := by
  by_contra hcon
  have hbx : cmp b x ≠ .gt := by
    rw [h.swap b hb x hx]
    cases hcmp : cmp x b <;> simp_all
  have hax := h.trans a ha b hb x hx hab hbx
  rw [h.swap a ha x hx, hxa] at hax
  exact hax rfl

theorem Proper.rankIn_lt_iff (h : Proper cmp l) {b : α} (ha : a ∈ l) (hb : b ∈ l) : rankIn cmp l a < rankIn cmp l b ↔ cmp a b = .lt := by
  have hle : ∀ {a b}, a ∈ l → b ∈ l → cmp a b ≠ .gt → rankIn cmp l a ≤ rankIn cmp l b := fun {a b} ha hb hab =>
    countP_mono_left fun x hx hxa => decide_eq_true (h.lt_of_lt_of_le hx ha hb (of_decide_eq_true hxa) hab)
  constructor
  · intro hlt
    by_contra hcon
    refine absurd hlt (not_lt.2 (hle hb ha ?_))
    rw [h.swap b hb a ha]
    cases hcmp : cmp a b <;> simp_all
  · intro hab
    have hsub : l.filter (cmp · a = .lt) = (l.filter (cmp · b = .lt)).filter (cmp · a = .lt) := by
      rw [filter_filter]
      refine filter_congr fun x hx => ?_
      by_cases hxa : cmp x a = .lt
      · simp [hxa, h.lt_of_lt_of_le hx ha hb hxa (by simp [hab])]
      · simp [hxa]
    rw [rankIn, rankIn, countP_eq_length_filter, countP_eq_length_filter, hsub]
    refine length_filter_lt_length_iff_exists.2 ⟨a, mem_filter.2 ⟨ha, decide_eq_true hab⟩, ?_⟩
    simp [h.self ha]

theorem Proper.rankIn_le_iff (h : Proper cmp l) {b : α} (ha : a ∈ l) (hb : b ∈ l) : rankIn cmp l a ≤ rankIn cmp l b ↔ cmp a b ≠ .gt := by
  rw [← not_lt, h.rankIn_lt_iff hb ha, h.swap b hb a ha]
  cases cmp a b <;> simp

end FerroDruid.Lib
