import Mathlib.Data.List.Sort
import Mathlib.Algebra.BigOperators.Group.List.Basic
import Mathlib.Data.List.Count
import Mathlib.Algebra.GroupWithZero.Nat
/-!
# Windows of a sorted list

Items in the order of a key, of which some are skipped and then some are taken. A
sorted list of keys is known by how many of them come up to each key, so windows
are compared by counting.
-/

namespace FerroDruid.Lib

open List

variable {α κ : Type*} [LinearOrder κ]

/-- A stable sort by a key. -/
def sortBy (key : α → κ) (items : List α) : List α := items.insertionSort fun a b => key a ≤ key b

/-- The first items, or all. -/
def takeLimit (limit : Option ℕ) (items : List α) : List α := items.take (limit.getD items.length)

def limited (limit : Option ℕ) (n : ℕ) : ℕ := min (limit.getD n) n

section

variable {key : α → κ} {items : List α}

theorem sortBy_perm (key : α → κ) (items : List α) : (sortBy key items).Perm items := perm_insertionSort _ _

theorem sorted_sortBy (key : α → κ) (items : List α) : ((sortBy key items).map key).Pairwise (· ≤ ·) := by
  rw [pairwise_map]
  exact pairwise_insertionSort _ _

theorem map_sortBy {β : Type*} {f : α → β} {key' : β → κ} (h : ∀ a ∈ items, key a = key' (f a)) :
    (sortBy key items).map f = sortBy key' (items.map f) :=
  map_insertionSort _ _ f items fun a ha b hb => by rw [h a ha, h b hb]

theorem sortBy_eq_self (h : (items.map key).Pairwise (· ≤ ·)) : sortBy key items = items := List.Pairwise.insertionSort_eq (pairwise_map.1 h)

theorem takeLimit_none : takeLimit none items = items := take_length

theorem takeLimit_some (n : ℕ) : takeLimit (some n) items = items.take n := rfl

theorem takeLimit_takeLimit {limit : Option ℕ} : takeLimit limit (takeLimit limit items) = takeLimit limit items := by
  cases limit with
  | none => rw [takeLimit_none, takeLimit_none]
  | some n => rw [takeLimit_some, takeLimit_some, take_take, min_self]

theorem map_takeLimit {β : Type*} (f : α → β) (limit : Option ℕ) : (takeLimit limit items).map f = takeLimit limit (items.map f) := by
  unfold takeLimit
  rw [map_take, length_map]

theorem takeLimit_sublist (limit : Option ℕ) : (takeLimit limit items).Sublist items := take_sublist _ _

end

/-! ## Counting -/

variable {l xs ys : List κ}

/-- The keys up to `t` are the first ones. -/
theorem countP_take (hl : l.Pairwise (· ≤ ·)) (t : κ) (n : ℕ) : (l.take n).countP (· ≤ t) = min n (l.countP (· ≤ t)) := by
  induction l generalizing n with
  | nil => simp
  | cons x l ih =>
    obtain ⟨hx, hl⟩ := pairwise_cons.1 hl
    cases n with
    | zero => simp
    | succ n =>
      rw [take_succ_cons, countP_cons, countP_cons, ih hl]
      by_cases hxt : x ≤ t
      · simp only [hxt, decide_true, if_true]
        omega
      · have hnone : l.countP (· ≤ t) = 0 := by
          rw [countP_eq_zero]
          intro y hy hyt
          exact hxt ((hx y hy).trans (of_decide_eq_true hyt))
        rw [hnone]
        simp [hxt]

theorem countP_drop (hl : l.Pairwise (· ≤ ·)) (t : κ) (n : ℕ) : (l.drop n).countP (· ≤ t) = l.countP (· ≤ t) - n := by
  have hsplit : (l.take n).countP (· ≤ t) + (l.drop n).countP (· ≤ t) = l.countP (· ≤ t) := by
    rw [← countP_append, take_append_drop]
  have htake := countP_take hl t n
  omega

theorem countP_takeLimit (hl : l.Pairwise (· ≤ ·)) (t : κ) (limit : Option ℕ) :
    (takeLimit limit l).countP (· ≤ t) = limited limit (l.countP (· ≤ t)) := by
  cases limit with
  | none => simp [takeLimit_none, limited]
  | some n => exact countP_take hl t n

/-- Sorted keys are known by their counts. -/
theorem eq_of_countP (hxs : xs.Pairwise (· ≤ ·)) (hys : ys.Pairwise (· ≤ ·)) (h : ∀ t, xs.countP (· ≤ t) = ys.countP (· ≤ t)) : xs = ys := by
  induction xs generalizing ys with
  | nil =>
    cases ys with
    | nil => rfl
    | cons y ys =>
      have := h y
      simp at this
  | cons x xs ih =>
    cases ys with
    | nil =>
      have := h x
      simp at this
    | cons y ys =>
      obtain ⟨hx, hxs'⟩ := pairwise_cons.1 hxs
      obtain ⟨hy, hys'⟩ := pairwise_cons.1 hys
      -- neither head is below the other, since it would be counted on one side only
      have hhead : ∀ {a b : κ} {as bs : List κ}, (∀ c ∈ bs, b ≤ c) → (a :: as).countP (· ≤ a) = (b :: bs).countP (· ≤ a) → b ≤ a := by
        intro a b as bs hbs hcount
        by_contra hlt
        have hzero : (b :: bs).countP (· ≤ a) = 0 := by
          rw [countP_eq_zero]
          intro c hc hca
          rcases mem_cons.1 hc with rfl | hc
          · exact hlt (of_decide_eq_true hca)
          · exact hlt ((hbs c hc).trans (of_decide_eq_true hca))
        rw [hzero] at hcount
        simp at hcount
      obtain rfl : x = y := le_antisymm (hhead hx (h y).symm) (hhead hy (h x))
      have htail : ∀ t, xs.countP (· ≤ t) = ys.countP (· ≤ t) := fun t => by
        have := h t
        rw [countP_cons, countP_cons] at this
        omega
      rw [ih hxs' hys' htail]

/-! ## Arrangements -/

theorem eq_of_perm_sorted (hxs : xs.Pairwise (· ≤ ·)) (hys : ys.Pairwise (· ≤ ·)) (h : xs.Perm ys) : xs = ys :=
  eq_of_countP hxs hys fun _ => h.countP_eq _

/-- Items with the keys of a window are that window of some arrangement in order. -/
theorem exists_arrangement {key : α → κ} {part items rest : List α} {offset n : ℕ} (hperm : (part ++ rest).Perm items)
    (hkeys : part.map key = (((sortBy key items).map key).drop offset).take n) :
    ∃ arranged : List α, arranged.Perm items ∧ (arranged.map key).Pairwise (· ≤ ·) ∧ part = (arranged.drop offset).take n := by
  set sorted := (sortBy key items).map key with hsorted
  have hpairwise : sorted.Pairwise (· ≤ ·) := sorted_sortBy key items
  set others := sortBy key rest with hothers
  -- the keys of the others are those before and after the window
  have hsplit : sorted = sorted.take offset ++ (part.map key ++ (sorted.drop offset).drop n) := by
    rw [hkeys, take_append_drop, take_append_drop]
  have hkeysPerm : (part.map key ++ others.map key).Perm sorted := by
    refine (((sortBy_perm key rest).map key).append_left _).trans ?_
    rw [← map_append, hsorted]
    exact (hperm.trans (sortBy_perm key items).symm).map key
  have hother : others.map key = sorted.take offset ++ (sorted.drop offset).drop n := by
    refine eq_of_perm_sorted (sorted_sortBy key rest) (hpairwise.sublist ?_) ?_
    · conv_rhs => rw [hsplit]
      exact (sublist_append_right _ _).append_left _
    · have := hkeysPerm
      rw [hsplit] at this
      exact (perm_append_left_iff _).1 (this.trans (perm_append_comm_assoc _ _ _))
  have hlength : others.length = (sorted.take offset).length + ((sorted.drop offset).drop n).length := by
    rw [← length_append, ← hother, length_map]
  have hpart : part.length = min n (sorted.length - offset) := by
    rw [← length_map key, hkeys, length_take, length_drop]
  rw [length_take, length_drop, length_drop] at hlength
  refine ⟨others.take offset ++ (part ++ others.drop offset), ?_, ?_, ?_⟩
  · refine (perm_append_comm_assoc _ _ _).trans ?_
    rw [take_append_drop]
    exact ((sortBy_perm key rest).append_left part).trans hperm
  · have htake : (others.map key).take offset = sorted.take offset := by
      rw [hother, take_append, take_take, min_self, length_take]
      rcases le_total offset sorted.length with hle | hle
      · rw [min_eq_left hle, Nat.sub_self, take_zero, append_nil]
      · rw [drop_eq_nil_of_le hle, drop_nil, take_nil, append_nil]
    have hdrop : (others.map key).drop offset = (sorted.drop offset).drop n := by
      have := take_append_drop offset (others.map key)
      rw [htake] at this
      exact append_cancel_left (this.trans hother)
    rw [map_append, map_append, map_take, map_drop, htake, hdrop, ← hsplit]
    exact hpairwise
  · rw [drop_append, length_take]
    rcases Nat.lt_or_ge others.length offset with hle | hle
    · have hnil : part = [] := eq_nil_of_length_eq_zero (by omega)
      rw [hnil, nil_append, drop_drop, drop_eq_nil_of_le (by rw [length_take]; omega), nil_append,
        drop_eq_nil_of_le (by omega), take_nil]
    · rw [min_eq_left hle, Nat.sub_self, drop_zero, drop_eq_nil_of_le (by rw [length_take]; omega), nil_append]
      rcases le_total n (sorted.length - offset) with hn | hn
      · rw [min_eq_left hn] at hpart
        rw [take_append_of_le_length hpart.ge, take_of_length_le hpart.le]
      · have hnone : others.drop offset = [] := drop_eq_nil_of_le (by omega)
        rw [hnone, append_nil, take_of_length_le (by omega)]

/-! ## Windows of parts -/

/-- The keys up to `t` in each part. -/
def counts (parts : List (List κ)) (t : κ) : List ℕ := parts.map fun part => part.countP (· ≤ t)

theorem sum_sub_le (offset : ℕ) (ns : List ℕ) : (ns.map (· - offset)).sum ≤ ns.sum - offset := by
  induction ns with
  | nil => exact Nat.zero_le _
  | cons n ns ih =>
    rw [map_cons, sum_cons, sum_cons]
    omega

theorem countP_pos_eq_zero_iff (ns : List ℕ) : ns.countP (0 < ·) = 0 ↔ ns.sum = 0 := by
  induction ns with
  | nil => simp
  | cons n ns ih =>
    rw [sum_cons, countP_cons]
    rcases Nat.eq_zero_or_pos n with rfl | hn
    · simpa using ih
    · simp only [hn, decide_true, if_true]
      omega

/-- Skipping in every part is skipping once if there is nothing to skip, or nothing
is left, or only one part has something. -/
theorem sum_sub_eq_iff (offset : ℕ) (ns : List ℕ) :
    (ns.map (· - offset)).sum = ns.sum - offset ↔ offset = 0 ∨ ns.sum ≤ offset ∨ ns.countP (0 < ·) ≤ 1 := by
  induction ns with
  | nil => simp
  | cons n ns ih =>
    have hle := sum_sub_le offset ns
    have hzero := countP_pos_eq_zero_iff ns
    rw [map_cons, sum_cons, sum_cons, countP_cons]
    rcases Nat.eq_zero_or_pos n with rfl | hn
    · simpa using ih
    · simp only [hn, decide_true, if_true]
      omega

theorem sum_limited (limit : Option ℕ) (ns : List ℕ) : limited limit (ns.map (limited limit)).sum = limited limit ns.sum := by
  cases limit with
  | none =>
    have hid : (limited none : ℕ → ℕ) = id := funext fun n => by simp [limited]
    rw [hid, map_id]
  | some l =>
    unfold limited
    dsimp only [Option.getD_some]
    induction ns with
    | nil => rfl
    | cons n ns ih =>
      rw [map_cons, sum_cons, sum_cons]
      omega

/-- The window of each part, in order and limited again, is the window of all exactly
if up to every key nothing is skipped, or all is skipped, or only one part has
something, or the limit is reached by what the parts have left. -/
theorem windows_eq_iff (limit : Option ℕ) (offset : ℕ) (parts : List (List κ)) :
    takeLimit limit (sortBy id (parts.map fun part => takeLimit limit ((sortBy id part).drop offset)).flatten) =
        takeLimit limit ((sortBy id parts.flatten).drop offset) ↔
      ∀ t, offset = 0 ∨ (counts parts t).sum ≤ offset ∨ (counts parts t).countP (0 < ·) ≤ 1 ∨
        ∃ n ∈ limit, n ≤ ((counts parts t).map (· - offset)).sum := by
  have hsorted : ∀ l : List κ, (sortBy id l).Pairwise (· ≤ ·) := fun l => by
    simpa using sorted_sortBy id l
  have hleft : ∀ t, (takeLimit limit (sortBy id (parts.map fun part => takeLimit limit ((sortBy id part).drop offset)).flatten)).countP (· ≤ t) =
      limited limit ((counts parts t).map (· - offset)).sum := fun t => by
    rw [countP_takeLimit (hsorted _), (sortBy_perm id _).countP_eq, countP_flatten, map_map]
    refine Eq.trans ?_ (sum_limited limit _)
    rw [counts, map_map, map_map]
    congr 2
    refine map_congr_left fun part _ => ?_
    simp only [Function.comp]
    rw [countP_takeLimit ((hsorted part).sublist (drop_sublist _ _)), countP_drop (hsorted part), (sortBy_perm id part).countP_eq]
  have hright : ∀ t, (takeLimit limit ((sortBy id parts.flatten).drop offset)).countP (· ≤ t) = limited limit ((counts parts t).sum - offset) :=
    fun t => by
      rw [countP_takeLimit ((hsorted _).sublist (drop_sublist _ _)), countP_drop (hsorted _), (sortBy_perm id _).countP_eq,
        countP_flatten]
      rfl
  have hcount : takeLimit limit (sortBy id (parts.map fun part => takeLimit limit ((sortBy id part).drop offset)).flatten) =
      takeLimit limit ((sortBy id parts.flatten).drop offset) ↔
        ∀ t, limited limit ((counts parts t).map (· - offset)).sum = limited limit ((counts parts t).sum - offset) := by
    constructor
    · intro heq t
      rw [← hleft, ← hright, heq]
    · intro h
      refine eq_of_countP ((hsorted _).sublist (takeLimit_sublist _))
        (((hsorted _).sublist (drop_sublist _ _)).sublist (takeLimit_sublist _)) fun t => ?_
      rw [hleft, hright, h]
  rw [hcount]
  refine forall_congr' fun t => ?_
  have hle := sum_sub_le offset (counts parts t)
  have hiff := sum_sub_eq_iff offset (counts parts t)
  cases limit with
  | none =>
    have hnone : ¬ ∃ n ∈ (none : Option ℕ), n ≤ ((counts parts t).map (· - offset)).sum := by simp
    simp only [limited, Option.getD_none, min_self, hiff, hnone, or_false]
  | some l =>
    have hsome : (∃ n ∈ some l, n ≤ ((counts parts t).map (· - offset)).sum) ↔ l ≤ ((counts parts t).map (· - offset)).sum := by simp
    rw [hsome]
    simp only [limited, Option.getD_some]
    generalize (counts parts t).sum = all at *
    omega

end FerroDruid.Lib
