import FerroDruid.Lib.Sorting
import Mathlib.Data.List.Pairwise
/-!
# Ranks

Ranks in a list, counted under a comparison with ties, and the numbers that one
pass over a sorted list gives when it takes elements with one key for ties. The
two agree if and only if ties have one key.
-/

namespace FerroDruid.Lib

open List

section

variable {α : Type} (cmp : α → α → Ordering) (l : List α)

/-- How many different ones come before. -/
def denseRankIn (a : α) : ℕ := ((l.filter fun b => cmp b a = .lt).pwFilter fun b c => cmp b c ≠ .eq).length

/-- The number of those that are not after. -/
def reachIn (a : α) : ℕ := l.countP fun b => cmp b a ≠ .gt

end

section

variable {κ : Type} [DecidableEq κ] (key : ℕ → κ)

/-- The number of the element at a position, where `fresh` is for a new key: of
the position, and the number before. -/
def tieNumber (fresh : ℕ → ℕ → ℕ) : ℕ → ℕ
  | 0 => fresh 0 0
  | i + 1 => if key (i + 1) = key i then tieNumber fresh i else fresh (i + 1) (tieNumber fresh i)

/-- Where the run of one key is over, of `n` elements. -/
def runEnd (n i : ℕ) : ℕ := if i + 1 < n ∧ key (i + 1) = key i then runEnd n (i + 1) else i + 1
  termination_by n - i

variable {key} {n : ℕ} {tie : ℕ → Prop} [DecidablePred tie] (hkey : ∀ i, i + 1 < n → key (i + 1) = key i → tie i)
include hkey

/-- The pass numbers as `f` does when neighbours that tie have one key. -/
theorem tieNumber_eq_iff {fresh : ℕ → ℕ → ℕ} {f : ℕ → ℕ} (hzero : 0 < n → f 0 = fresh 0 0)
    (hsucc : ∀ i, i + 1 < n → f (i + 1) = if tie i then f i else fresh (i + 1) (f i)) (hfresh : ∀ i, i + 1 < n → fresh (i + 1) (f i) ≠ f i) :
    (∀ i < n, tieNumber key fresh i = f i) ↔ ∀ i, i + 1 < n → tie i → key (i + 1) = key i := by
  constructor
  · intro hall i hi htie
    by_contra hne
    have hnext := hall (i + 1) hi
    rw [tieNumber, if_neg hne, hall i (by omega), hsucc i hi, if_pos htie] at hnext
    exact hfresh i hi hnext
  · intro hties i
    induction i with
    | zero => exact fun hi => (hzero hi).symm
    | succ i ih =>
      intro hi
      rw [tieNumber, ih (by omega), hsucc i hi]
      by_cases htie : tie i
      · rw [if_pos (hties i hi htie), if_pos htie]
      · rw [if_neg (fun heq => htie (hkey i hi heq)), if_neg htie]

/-- So do the ends of the runs. -/
theorem runEnd_eq {f : ℕ → ℕ} (hstep : ∀ i < n, f i = if i + 1 < n ∧ tie i then f (i + 1) else i + 1)
    (hties : ∀ i, i + 1 < n → tie i → key (i + 1) = key i) (i : ℕ) (hi : i < n) : runEnd key n i = f i := by
  rw [runEnd, hstep i hi]
  by_cases hnext : i + 1 < n ∧ tie i
  · rw [if_pos ⟨hnext.1, hties i hnext.1 hnext.2⟩, if_pos hnext]
    exact runEnd_eq hstep hties (i + 1) hnext.1
  · rw [if_neg (fun h => hnext ⟨h.1, hkey i h.1 h.2⟩), if_neg hnext]
  termination_by n - i

end

theorem tieNumber_le {κ : Type} [DecidableEq κ] (key : ℕ → κ) {fresh : ℕ → ℕ → ℕ} (hzero : fresh 0 0 ≤ 1)
    (hfresh : ∀ i c, c ≤ i + 1 → fresh (i + 1) c ≤ i + 2) (i : ℕ) : tieNumber key fresh i ≤ i + 1 := by
  induction i with
  | zero => exact hzero
  | succ i ih =>
    rw [tieNumber]
    split_ifs
    · exact ih.trans (Nat.le_succ _)
    · exact hfresh i _ ih

theorem tieNumber_pos {κ : Type} [DecidableEq κ] (key : ℕ → κ) {fresh : ℕ → ℕ → ℕ} (hfresh : ∀ i c, 0 < fresh i c) (i : ℕ) :
    0 < tieNumber key fresh i := by
  induction i with
  | zero => exact hfresh 0 0
  | succ i ih =>
    rw [tieNumber]
    split_ifs
    · exact ih
    · exact hfresh _ _

theorem runEnd_le {κ : Type} [DecidableEq κ] (key : ℕ → κ) {n i : ℕ} (hi : i < n) : runEnd key n i ≤ n := by
  rw [runEnd]
  split_ifs with hnext
  · exact runEnd_le key hnext.1
  · exact hi
  termination_by n - i

variable {i : ℕ}

theorem runEnd_of_ne {κ : Type} [DecidableEq κ] {key : ℕ → κ} {n : ℕ} (h : key (i + 1) ≠ key i) : runEnd key n i = i + 1 := by
  rw [runEnd, if_neg (fun hand => h hand.2)]

/-! ## Sorted lists -/

theorem eq_filter_append {α : Type} {p : α → Bool} {l : List α} (h : l.Pairwise fun a b => p b = true → p a = true) :
    l = l.filter p ++ l.filter fun a => !p a := by
  induction l with
  | nil => rfl
  | cons a l ih =>
    obtain ⟨ha, hl⟩ := pairwise_cons.1 h
    cases hp : p a with
    | true =>
      rw [filter_cons_of_pos hp, filter_cons_of_neg (by simp [hp]), cons_append, ← ih hl]
    | false =>
      have hnone : l.filter p = [] := filter_eq_nil_iff.2 fun b hb hpb => by
        rw [ha b hb hpb] at hp
        cases hp
      rw [filter_cons_of_neg (by simp [hp]), filter_cons_of_pos (by simp [hp]), hnone, nil_append]
      nth_rewrite 1 [ih hl]
      rw [hnone, nil_append]

variable {α : Type} {cmp : α → α → Ordering} [htrans : Std.TransCmp cmp] {l : List α}

omit htrans in
theorem sorted_le (h : l.Pairwise fun a b => cmp a b ≠ .gt) {j : ℕ} (hij : i < j) (hj : j < l.length) : cmp l[i] l[j] ≠ .gt :=
  pairwise_iff_getElem.1 h i j (by omega) hj hij

theorem cmp_congr_right {a b c : α} (h : cmp b c = .eq) : cmp a b = cmp a c := Std.TransCmp.congr_right h

/-- What ties with a later one ties with all in between. -/
theorem tie_between (h : l.Pairwise fun a b => cmp a b ≠ .gt) {j k : ℕ} (hij : i ≤ j) (hjk : j ≤ k) (hk : k < l.length) (htie : cmp l[i] l[k] = .eq) :
    cmp l[i] l[j] = .eq := by
  rcases Nat.eq_or_lt_of_le hij with rfl | hij
  · exact Std.ReflCmp.compare_self
  rcases Nat.eq_or_lt_of_le hjk with rfl | hjk
  · exact htie
  have hle := sorted_le h hij (by omega)
  have hle' := sorted_le h hjk hk
  have hge : (cmp l[j] l[i]).isLE := by
    rw [cmp_congr_right htie]
    exact Ordering.isLE_iff_ne_gt.2 hle'
  exact Std.OrientedCmp.isLE_antisymm (Ordering.isLE_iff_ne_gt.2 hle) hge

theorem mem_take {b : α} (h : b ∈ l.take (i + 1)) : ∃ j, ∃ hj : j < l.length, j ≤ i ∧ l[j] = b := by
  obtain ⟨j, hj, rfl⟩ := mem_iff_getElem.1 h
  rw [length_take] at hj
  exact ⟨j, by omega, by omega, by simp⟩

theorem mem_drop {b : α} (h : b ∈ l.drop (i + 1)) : ∃ j, ∃ hj : j < l.length, i < j ∧ l[j] = b := by
  obtain ⟨j, hj, rfl⟩ := mem_iff_getElem.1 h
  rw [length_drop] at hj
  exact ⟨i + 1 + j, by omega, by omega, by simp⟩

/-- A test that the first elements pass and the rest fail. -/
theorem filter_eq_take {p : α → Bool} (htake : ∀ j (hj : j < l.length), j ≤ i → p l[j] = true)
    (hdrop : ∀ j (hj : j < l.length), i < j → p l[j] = false) : l.filter p = l.take (i + 1) := by
  nth_rewrite 1 [← take_append_drop (i + 1) l]
  have hfirst : (l.take (i + 1)).filter p = l.take (i + 1) := filter_eq_self.2 fun b hb => by
    obtain ⟨j, hj, hle, rfl⟩ := mem_take hb
    exact htake j hj hle
  have hrest : (l.drop (i + 1)).filter p = [] := filter_eq_nil_iff.2 fun b hb => by
    obtain ⟨j, hj, hlt, rfl⟩ := mem_drop hb
    rw [hdrop j hj hlt]
    exact Bool.false_ne_true
  rw [filter_append, hfirst, hrest, append_nil]

theorem filter_before_tie (hi : i + 1 < l.length) (htie : cmp l[i] l[i + 1] = .eq) :
    (l.filter fun b => cmp b l[i + 1] = .lt) = l.filter fun b => cmp b l[i] = .lt :=
  filter_congr fun b _ => by rw [cmp_congr_right htie]

omit htrans in
theorem denseRankIn_le_rankIn (a : α) : denseRankIn cmp l a ≤ rankIn cmp l a := by
  rw [denseRankIn, rankIn, countP_eq_length_filter]
  exact (pwFilter_sublist _).length_le

/-- Of what is different on both sides, the different ones on each side. -/
theorem length_pwFilter_append {xs ys : List α} (hne : ∀ x ∈ xs, ∀ y ∈ ys, cmp x y ≠ .eq) :
    ((xs ++ ys).pwFilter fun b c => cmp b c ≠ .eq).length =
      (xs.pwFilter fun b c => cmp b c ≠ .eq).length + (ys.pwFilter fun b c => cmp b c ≠ .eq).length := by
  have hiff : ∀ (a : α) (zs : List α), (∀ b ∈ zs.pwFilter fun b c => cmp b c ≠ .eq, cmp a b ≠ .eq) ↔ ∀ b ∈ zs, cmp a b ≠ .eq :=
    fun a zs => forall_mem_pwFilter (fun {x y z} hxz => by
      by_contra hnot
      rw [not_or, not_not, not_not] at hnot
      exact hxz (Std.TransCmp.eq_trans hnot.1 hnot.2)) a zs
  induction xs with
  | nil => simp
  | cons x xs ih =>
    obtain ⟨hx, hxs⟩ := forall_mem_cons.1 hne
    by_cases hall : ∀ b ∈ xs, cmp x b ≠ .eq
    · have happend : ∀ b ∈ xs ++ ys, cmp x b ≠ .eq := fun b hb => (mem_append.1 hb).elim (hall b) (hx b)
      rw [cons_append, pwFilter_cons_of_pos ((hiff _ _).2 happend), pwFilter_cons_of_pos ((hiff _ _).2 hall), length_cons,
        length_cons, ih hxs]
      omega
    · have happend : ¬ ∀ b ∈ xs ++ ys, cmp x b ≠ .eq := fun hb => hall fun b hbx => hb b (mem_append_left _ hbx)
      rw [cons_append, pwFilter_cons_of_neg (mt (hiff _ _).1 happend), pwFilter_cons_of_neg (mt (hiff _ _).1 hall), ih hxs]

section

variable (h : l.Pairwise fun a b => cmp a b ≠ .gt)
include h

omit htrans in
variable {i : ℕ}

theorem tie_or_lt (hi : i + 1 < l.length) (hne : cmp l[i] l[i + 1] ≠ .eq) : cmp l[i] l[i + 1] = .lt := by
  have hle := sorted_le h (Nat.lt_succ_self i) hi
  cases hcmp : cmp l[i] l[i + 1] with
  | lt => rfl
  | eq => exact absurd hcmp hne
  | gt => exact absurd hcmp hle

theorem not_before {j : ℕ} (hij : i ≤ j) (hj : j < l.length) : cmp l[j] l[i] ≠ .lt := by
  intro hlt
  have hgt : cmp l[i] l[j] = .gt := Std.OrientedCmp.gt_of_lt hlt
  rcases Nat.eq_or_lt_of_le hij with rfl | hij
  · have hself : cmp l[i] l[i] = .eq := Std.ReflCmp.compare_self
    rw [hself] at hgt
    cases hgt
  · exact sorted_le h hij hj hgt

theorem before_next {j : ℕ} (hji : j ≤ i) (hi : i + 1 < l.length) (hlt : cmp l[i] l[i + 1] = .lt) : cmp l[j] l[i + 1] = .lt := by
  rcases Nat.eq_or_lt_of_le hji with rfl | hji
  · exact hlt
  · exact Std.TransCmp.lt_of_isLE_of_lt (Ordering.isLE_iff_ne_gt.2 (sorted_le h hji (by omega))) hlt

theorem filter_before_next (hi : i + 1 < l.length) (hne : cmp l[i] l[i + 1] ≠ .eq) :
    (l.filter fun b => cmp b l[i + 1] = .lt) = l.take (i + 1) :=
  filter_eq_take (fun _ _ hle => decide_eq_true (before_next h hle hi (tie_or_lt h hi hne)))
    fun _ hj hlt => decide_eq_false (not_before h hlt hj)

theorem filter_before_zero (hl : 0 < l.length) : (l.filter fun b => cmp b l[0] = .lt) = [] := filter_eq_nil_iff.2 fun b hb => by
  obtain ⟨j, hj, rfl⟩ := mem_iff_getElem.1 hb
  simpa using not_before h (Nat.zero_le j) hj

theorem rankIn_zero (hl : 0 < l.length) : rankIn cmp l l[0] = 0 := by
  rw [rankIn, countP_eq_length_filter, filter_before_zero h hl]
  rfl

theorem rankIn_succ (hi : i + 1 < l.length) :
    rankIn cmp l l[i + 1] = if cmp l[i] l[i + 1] = .eq then rankIn cmp l l[i] else i + 1 := by
  unfold rankIn
  rw [countP_eq_length_filter, countP_eq_length_filter]
  split_ifs with htie
  · rw [filter_before_tie hi htie]
  · rw [filter_before_next h hi htie, length_take, Nat.min_eq_left (by omega)]

theorem rankIn_le (hi : i < l.length) : rankIn cmp l l[i] ≤ i := by
  induction i with
  | zero => rw [rankIn_zero h hi]
  | succ i ih =>
    rw [rankIn_succ h hi]
    split_ifs
    · exact (ih (by omega)).trans (by omega)
    · exact le_refl _

theorem denseRankIn_zero (hl : 0 < l.length) : denseRankIn cmp l l[0] = 0 := by
  rw [denseRankIn, filter_before_zero h hl]
  rfl

/-- Up to an element, there are those before it and its ties. -/
theorem take_eq_before_ties (hi : i < l.length) :
    ∃ ties, ties ≠ [] ∧ (∀ b ∈ ties, cmp b l[i] = .eq) ∧ l.take (i + 1) = (l.filter fun b => cmp b l[i] = .lt) ++ ties := by
  have hsplit := eq_filter_append (p := fun b => cmp b l[i] = .lt) (l := l.take (i + 1)) ?_
  · refine ⟨(l.take (i + 1)).filter fun b => !decide (cmp b l[i] = .lt), ?_, ?_, ?_⟩
    · refine ne_nil_of_mem (mem_filter.2 ⟨mem_iff_getElem.2 ⟨i, by rw [length_take]; omega, getElem_take⟩, ?_⟩)
      have hself : cmp l[i] l[i] = .eq := Std.ReflCmp.compare_self
      rw [hself]
      rfl
    · intro b hb
      obtain ⟨hmem, hnot⟩ := mem_filter.1 hb
      obtain ⟨j, hj, hle, rfl⟩ := mem_take hmem
      rcases Nat.eq_or_lt_of_le hle with rfl | hlt
      · exact Std.ReflCmp.compare_self
      · have hgt := sorted_le h hlt hi
        cases hcmp : cmp l[j] l[i] with
        | lt => simp [hcmp] at hnot
        | eq => rfl
        | gt => exact absurd hcmp hgt
    · have hdrop : (l.drop (i + 1)).filter (fun b => cmp b l[i] = .lt) = [] := filter_eq_nil_iff.2 fun b hb => by
        obtain ⟨j, hj, hlt, rfl⟩ := mem_drop hb
        simpa using not_before h hlt.le hj
      have hwhole : (l.filter fun b => cmp b l[i] = .lt) = (l.take (i + 1)).filter fun b => cmp b l[i] = .lt := by
        have happend := congrArg (List.filter fun b => cmp b l[i] = .lt) (take_append_drop (i + 1) l).symm
        rwa [filter_append, hdrop, append_nil] at happend
      rw [hwhole]
      exact hsplit
  · refine (h.sublist (take_sublist ..)).imp fun {a b} hle hb => ?_
    have hlt := of_decide_eq_true hb
    exact decide_eq_true (Std.TransCmp.lt_of_isLE_of_lt (Ordering.isLE_iff_ne_gt.2 hle) hlt)

omit h in
theorem length_pwFilter_ties {a : α} {ties : List α} (hne : ties ≠ []) (hties : ∀ b ∈ ties, cmp b a = .eq) :
    (ties.pwFilter fun b c => cmp b c ≠ .eq).length = 1 := by
  have htie : ∀ b ∈ ties, ∀ c ∈ ties, cmp b c = .eq := fun b hb c hc => Std.TransCmp.eq_trans (hties b hb) (Std.OrientedCmp.eq_symm (hties c hc))
  have hle : (ties.pwFilter fun b c => cmp b c ≠ .eq).length ≤ 1 := by
    have hpairwise := pairwise_pwFilter (R := fun b c => cmp b c ≠ .eq) ties
    have hsubset := pwFilter_subset (R := fun b c => cmp b c ≠ .eq) ties
    by_contra hlen
    rw [not_le] at hlen
    exact pairwise_iff_getElem.1 hpairwise 0 1 (by omega) hlen (by omega)
      (htie _ (hsubset (getElem_mem _)) _ (hsubset (getElem_mem _)))
  cases ties with
  | nil => exact absurd rfl hne
  | cons b ties =>
    refine le_antisymm hle (length_pos_iff.2 ?_)
    intro hnil
    by_cases hall : ∀ c ∈ ties.pwFilter (fun b c => cmp b c ≠ .eq), cmp b c ≠ .eq
    · rw [pwFilter_cons_of_pos hall] at hnil
      cases hnil
    · rw [pwFilter_cons_of_neg hall] at hnil
      rw [hnil] at hall
      exact hall nofun

theorem denseRankIn_succ (hi : i + 1 < l.length) :
    denseRankIn cmp l l[i + 1] = if cmp l[i] l[i + 1] = .eq then denseRankIn cmp l l[i] else denseRankIn cmp l l[i] + 1 := by
  unfold denseRankIn
  split_ifs with htie
  · rw [filter_before_tie hi htie]
  · obtain ⟨ties, hne, hties, htake⟩ := take_eq_before_ties h (i := i) (by omega)
    rw [filter_before_next h hi htie, htake, length_pwFilter_append, length_pwFilter_ties hne hties]
    intro b hb c hc heq
    have hlt := of_decide_eq_true (mem_filter.1 hb).2
    rw [← cmp_congr_right (hties c hc), heq] at hlt
    cases hlt

omit h in
theorem reachIn_tie (hi : i + 1 < l.length) (htie : cmp l[i] l[i + 1] = .eq) : reachIn cmp l l[i] = reachIn cmp l l[i + 1] :=
  countP_congr fun b _ => by rw [cmp_congr_right htie]

theorem not_after {j : ℕ} (hji : j ≤ i) (hi : i < l.length) : cmp l[j] l[i] ≠ .gt := by
  rcases Nat.eq_or_lt_of_le hji with rfl | hlt
  · have hself : cmp l[j] l[j] = .eq := Std.ReflCmp.compare_self
    rw [hself]
    exact nofun
  · exact sorted_le h hlt hi

theorem reachIn_next (hi : i < l.length) (hne : ∀ hnext : i + 1 < l.length, cmp l[i] l[i + 1] ≠ .eq) : reachIn cmp l l[i] = i + 1 := by
  have hfilter : (l.filter fun b => cmp b l[i] ≠ .gt) = l.take (i + 1) := by
    refine filter_eq_take (fun j hj hle => decide_eq_true (not_after h hle hi)) fun j hj hlt => ?_
    have hbefore := Std.TransCmp.lt_of_lt_of_isLE (tie_or_lt h (by omega) (hne (by omega))) (Ordering.isLE_iff_ne_gt.2 (not_after h hlt hj))
    exact decide_eq_false (not_not.2 (Std.OrientedCmp.gt_of_lt hbefore))
  rw [reachIn, countP_eq_length_filter, hfilter, length_take, Nat.min_eq_left (by omega)]

theorem lt_reachIn (hi : i < l.length) : i < reachIn cmp l l[i] := by
  have hall : (l.take (i + 1)).countP (fun b => cmp b l[i] ≠ .gt) = (l.take (i + 1)).length := countP_eq_length.2 fun b hb => by
    obtain ⟨j, hj, hle, rfl⟩ := mem_take hb
    exact decide_eq_true (not_after h hle hi)
  have hle := (take_sublist (i + 1) l).countP_le (p := fun b => cmp b l[i] ≠ .gt)
  rw [hall, length_take, Nat.min_eq_left (by omega)] at hle
  exact hle

/-- Ties have one key when neighbours that tie do. -/
theorem ties_keyed_iff {κ : Type} (key : α → κ) : (∀ i (hi : i + 1 < l.length), cmp l[i] l[i + 1] = .eq → key l[i + 1] = key l[i]) ↔
    ∀ a ∈ l, ∀ b ∈ l, cmp a b = .eq → key a = key b := by
  constructor
  · intro hnext
    have hforward : ∀ i j (hj : j < l.length) (hij : i ≤ j), cmp l[i] l[j] = .eq → key l[i] = key l[j] := by
      intro i j
      induction j with
      | zero =>
        intro _ hij _
        obtain rfl : i = 0 := by omega
        rfl
      | succ j ih =>
        intro hj hij htie
        rcases Nat.eq_or_lt_of_le hij with rfl | hij
        · rfl
        have hprev := tie_between h (Nat.le_of_lt_succ hij) (Nat.le_succ j) hj htie
        have hstep : cmp l[j] l[j + 1] = .eq := Std.TransCmp.eq_trans (Std.OrientedCmp.eq_symm hprev) htie
        rw [ih (by omega) (Nat.le_of_lt_succ hij) hprev, hnext j hj hstep]
    intro a ha b hb htie
    obtain ⟨i, hi, rfl⟩ := mem_iff_getElem.1 ha
    obtain ⟨j, hj, rfl⟩ := mem_iff_getElem.1 hb
    rcases Nat.le_total i j with hij | hji
    · exact hforward i j hj hij htie
    · exact (hforward j i hi hji (Std.OrientedCmp.eq_symm htie)).symm
  · intro hall i hi htie
    exact (hall _ (getElem_mem _) _ (getElem_mem _) htie).symm

end

end FerroDruid.Lib
