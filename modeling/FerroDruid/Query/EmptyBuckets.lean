import FerroDruid.Query.Granularity
import FerroDruid.Lib.Arrival
/-!
# Buckets without rows

`expand_with_empty_buckets`: the gaps between the buckets of one coarser period are
filled, and where there is no bucket at all each interval gets one. The map of
buckets is its keys in order.
-/

namespace FerroDruid.Query

open Lib List

/-- `entry` of a `BTreeMap`. -/
def insertKey (keys : List ℤ) (k : ℤ) : List ℤ := if k ∈ keys then keys else keys.orderedInsert (· ≤ ·) k

/-- The loop from the first bucket of a group to the last. -/
def fillRange (periodMs : ℤ) (range : ℤ × ℤ) : List ℤ :=
  (List.range (((range.2 - range.1) / periodMs).toNat + 1)).map fun i : ℕ => range.1 + i * periodMs

/-- The coarser period of a bucket. -/
def macroKey (periodMs k : ℤ) : ℤ := k.fdiv (nextCoarserPeriodMs periodMs) * nextCoarserPeriodMs periodMs

/-- The first and last bucket of each coarser period. -/
def macroGroups (periodMs : ℤ) (buckets : List ℤ) : HashMap ℤ (ℤ × ℤ) :=
  groupFold (macroKey periodMs) (fun k => (k, k)) (fun range k => (min range.1 k, max range.2 k)) buckets ∅

def intervalKeys (calendar : Calendar) (granularity : GranularitySpec) (intervals : List (Int64 × Int64)) (keys : List ℤ) : List ℤ :=
  intervals.foldl (fun out interval => insertKey out (bucketTimestamp calendar interval.1 granularity)) keys

def expandWithEmptyBuckets (calendar : Calendar) (buckets : List ℤ) (granularity : GranularitySpec) (intervals : List (Int64 × Int64)) : List ℤ :=
  let out := buckets.foldl insertKey []
  match uniformPeriodMs granularity with
  | none => if out = [] ∧ isAllGranularity granularity then intervalKeys calendar granularity intervals out else out
  | some periodMs =>
    if out = [] then intervalKeys calendar granularity intervals out
    else (macroGroups periodMs buckets).values.foldl (fun out range => (fillRange periodMs range).foldl insertKey out) out

/-- The loop over a group steps past the last `i64`. -/
def fillOverflows (buckets : List ℤ) (granularity : GranularitySpec) : Bool :=
  match uniformPeriodMs granularity with
  | some periodMs => (macroGroups periodMs buckets).values.any fun range => i64Max < range.1 + ((range.2 - range.1) / periodMs + 1) * periodMs
  | none => false

/-! ## Keys in order -/

variable {keys : List ℤ}

theorem mem_insertKey {k k' : ℤ} : k' ∈ insertKey keys k ↔ k' = k ∨ k' ∈ keys := by
  unfold insertKey
  split_ifs with hk
  · constructor
    · exact .inr
    · rintro (rfl | h)
      · exact hk
      · exact h
  · exact mem_orderedInsert (· ≤ ·)

theorem pairwise_insertKey {k : ℤ} (h : keys.Pairwise (· < ·)) : (insertKey keys k).Pairwise (· < ·) := by
  unfold insertKey
  split_ifs with hk
  · exact h
  · induction keys with
    | nil => exact pairwise_singleton _ _
    | cons x keys ih =>
      obtain ⟨hx, hkeys⟩ := pairwise_cons.1 h
      rw [mem_cons, not_or] at hk
      rw [orderedInsert_cons]
      split_ifs with hle
      · have hlt : k < x := lt_of_le_of_ne hle hk.1
        exact pairwise_cons.2 ⟨forall_mem_cons.2 ⟨hlt, fun y hy => hlt.trans (hx y hy)⟩, h⟩
      · refine pairwise_cons.2 ⟨fun y hy => ?_, ih hkeys hk.2⟩
        rcases (mem_orderedInsert (· ≤ ·)).1 hy with rfl | hy
        · exact lt_of_not_ge hle
        · exact hx y hy

variable {ks : List ℤ}

theorem mem_foldl_insertKey {k : ℤ} : k ∈ ks.foldl insertKey keys ↔ k ∈ ks ∨ k ∈ keys := by
  induction ks generalizing keys with
  | nil => simp
  | cons x ks ih =>
    rw [foldl_cons, ih, mem_insertKey, mem_cons]
    exact or_left_comm.trans or_assoc.symm

theorem pairwise_foldl_insertKey (h : keys.Pairwise (· < ·)) : (ks.foldl insertKey keys).Pairwise (· < ·) := by
  induction ks generalizing keys with
  | nil => exact h
  | cons x ks ih => exact ih (pairwise_insertKey h)

theorem intervalKeys_eq (calendar : Calendar) (granularity : GranularitySpec) (intervals : List (Int64 × Int64)) (keys : List ℤ) :
    intervalKeys calendar granularity intervals keys =
      (intervals.map fun interval => bucketTimestamp calendar interval.1 granularity).foldl insertKey keys := by
  rw [intervalKeys, foldl_map]

/-! ## What is filled -/

variable {periodMs : ℤ}

/-- The last bucket of a loop of periods, and those before it. -/
theorem mem_fillRange {lo hi k : ℤ} (hperiod : 0 < periodMs) (hle : lo ≤ hi) :
    k ∈ fillRange periodMs (lo, hi) ↔ k ≤ hi ∧ ∃ i : ℕ, k = lo + i * periodMs := by
  have hnonneg : 0 ≤ (hi - lo) / periodMs := Int.ediv_nonneg (by omega) hperiod.le
  simp only [fillRange, mem_map, mem_range]
  constructor
  · rintro ⟨i, hi', rfl⟩
    refine ⟨?_, i, rfl⟩
    have : (i : ℤ) ≤ (hi - lo) / periodMs := by omega
    have := (Int.le_ediv_iff_mul_le hperiod).1 this
    omega
  · rintro ⟨hk, i, rfl⟩
    refine ⟨i, ?_, rfl⟩
    have : (i : ℤ) ≤ (hi - lo) / periodMs := (Int.le_ediv_iff_mul_le hperiod).2 (by omega)
    omega

/-- The range of a group has its least and its greatest bucket. -/
theorem foldl_range (ks : List ℤ) (range : ℤ × ℤ) :
    let result := ks.foldl (fun range k => (min range.1 k, max range.2 k)) range
    (result.1 = range.1 ∨ result.1 ∈ ks) ∧ (result.2 = range.2 ∨ result.2 ∈ ks) ∧ result.1 ≤ range.1 ∧ range.2 ≤ result.2 ∧
      ∀ k ∈ ks, result.1 ≤ k ∧ k ≤ result.2 := by
  induction ks generalizing range with
  | nil => simp
  | cons k ks ih =>
    obtain ⟨hlo, hhi, hlo', hhi', hall⟩ := ih (min range.1 k, max range.2 k)
    simp only [foldl_cons, mem_cons]
    generalize ks.foldl (fun range k => (min range.1 k, max range.2 k)) (min range.1 k, max range.2 k) = result at *
    refine ⟨?_, ?_, hlo'.trans (min_le_left _ _), (le_max_left _ _).trans hhi', ?_⟩
    · rcases hlo with hlo | hlo
      · rcases min_choice range.1 k with h | h <;> rw [h] at hlo
        · exact .inl hlo
        · exact .inr (.inl hlo)
      · exact .inr (.inr hlo)
    · rcases hhi with hhi | hhi
      · rcases max_choice range.2 k with h | h <;> rw [h] at hhi
        · exact .inl hhi
        · exact .inr (.inl hhi)
      · exact .inr (.inr hhi)
    · rintro k' (rfl | hk')
      · exact ⟨hlo'.trans (min_le_right _ _), (le_max_right _ _).trans hhi'⟩
      · exact hall k' hk'

/-- A bucket is filled if it is between two buckets of its coarser period, in step
with the first of them. -/
def Filled (periodMs : ℤ) (buckets : List ℤ) (k : ℤ) : Prop :=
  ∃ lo ∈ buckets, ∃ hi ∈ buckets, macroKey periodMs hi = macroKey periodMs lo ∧ (∀ b ∈ buckets, macroKey periodMs b = macroKey periodMs lo → lo ≤ b) ∧
    k ≤ hi ∧ ∃ i : ℕ, k = lo + i * periodMs

theorem mem_macroGroups {buckets : List ℤ} {range : ℤ × ℤ} (h : range ∈ (macroGroups periodMs buckets).values) :
    range.1 ∈ buckets ∧ range.2 ∈ buckets ∧ range.1 ≤ range.2 ∧ macroKey periodMs range.2 = macroKey periodMs range.1 ∧
      ∀ b ∈ buckets, macroKey periodMs b = macroKey periodMs range.1 → range.1 ≤ b ∧ b ≤ range.2 := by
  obtain ⟨m, hm⟩ := HashMap.mem_values.1 h
  rw [macroGroups, lookup_groupFold_empty] at hm
  have hmem : ∀ b, b ∈ buckets.filter (macroKey periodMs · = m) ↔ b ∈ buckets ∧ macroKey periodMs b = m := fun b => by
    rw [mem_filter, decide_eq_true_eq]
  cases hgroup : buckets.filter (macroKey periodMs · = m) with
  | nil =>
    rw [hgroup] at hm
    exact absurd hm nofun
  | cons a group =>
    rw [hgroup] at hm hmem
    obtain rfl := Option.some.inj hm
    obtain ⟨hlo, hhi, -, -, hall⟩ := foldl_range (a :: group) (a, a)
    generalize (a :: group).foldl (fun range k => (min range.1 k, max range.2 k)) (a, a) = range at *
    have hloMem : range.1 ∈ a :: group := by
      rcases hlo with h | h
      · exact h ▸ mem_cons_self ..
      · exact h
    have hhiMem : range.2 ∈ a :: group := by
      rcases hhi with h | h
      · exact h ▸ mem_cons_self ..
      · exact h
    obtain ⟨hlo, hlom⟩ := (hmem _).1 hloMem
    obtain ⟨hhi, hhim⟩ := (hmem _).1 hhiMem
    refine ⟨hlo, hhi, (hall _ hloMem).2, hhim.trans hlom.symm, fun b hb hbm => hall b ((hmem b).2 ⟨hb, hbm.trans hlom⟩)⟩

theorem exists_macroGroup {b : ℤ} {buckets : List ℤ} (h : b ∈ buckets) :
    ∃ range ∈ (macroGroups periodMs buckets).values, macroKey periodMs range.1 = macroKey periodMs b := by
  have hb : b ∈ buckets.filter (macroKey periodMs · = macroKey periodMs b) := mem_filter.2 ⟨h, decide_eq_true rfl⟩
  have hlookup : ∃ range, (macroGroups periodMs buckets).lookup (macroKey periodMs b) = some range ∧
      range.1 ∈ buckets.filter (macroKey periodMs · = macroKey periodMs b) := by
    rw [macroGroups, lookup_groupFold_empty]
    cases hgroup : buckets.filter (macroKey periodMs · = macroKey periodMs b) with
    | nil =>
      rw [hgroup] at hb
      exact absurd hb not_mem_nil
    | cons a group =>
      refine ⟨_, rfl, ?_⟩
      rcases (foldl_range (a :: group) (a, a)).1 with h | h
      · rw [h]
        exact mem_cons_self ..
      · exact h
  obtain ⟨range, hlookup, hrange⟩ := hlookup
  exact ⟨range, HashMap.mem_values.2 ⟨_, hlookup⟩, of_decide_eq_true (mem_filter.1 hrange).2⟩

theorem mem_filledGroups {k : ℤ} {buckets out : List ℤ} (hperiod : 0 < periodMs) :
    k ∈ (macroGroups periodMs buckets).values.foldl (fun out range => (fillRange periodMs range).foldl insertKey out) out ↔
      Filled periodMs buckets k ∨ k ∈ out := by
  have hfold : ∀ (ranges : List (ℤ × ℤ)) (out : List ℤ),
      k ∈ ranges.foldl (fun out range => (fillRange periodMs range).foldl insertKey out) out ↔
        (∃ range ∈ ranges, k ∈ fillRange periodMs range) ∨ k ∈ out := by
    intro ranges
    induction ranges with
    | nil => simp
    | cons range ranges ih =>
      intro out
      rw [foldl_cons, ih, mem_foldl_insertKey, exists_mem_cons_iff]
      exact or_left_comm.trans or_assoc.symm
  rw [hfold]
  refine or_congr_left ⟨?_, ?_⟩
  · rintro ⟨⟨lo, hi⟩, hrange, hk⟩
    obtain ⟨hlo, hhi, hle, hgroup, hall⟩ := mem_macroGroups hrange
    obtain ⟨hkhi, hstep⟩ := (mem_fillRange hperiod hle).1 hk
    exact ⟨lo, hlo, hi, hhi, hgroup, fun b hb hbm => (hall b hb hbm).1, hkhi, hstep⟩
  · rintro ⟨lo, hlo, hi, hhi, hgroup, hleast, hkhi, hstep⟩
    obtain ⟨⟨lo', hi'⟩, hrange, hsame⟩ := exists_macroGroup hlo
    obtain ⟨hlo', -, hle, -, hall⟩ := mem_macroGroups hrange
    obtain rfl : lo' = lo := le_antisymm (hall lo hlo hsame.symm).1 (hleast lo' hlo' hsame)
    exact ⟨(lo', hi'), hrange, (mem_fillRange hperiod hle).2 ⟨hkhi.trans (hall hi hhi hgroup).2, hstep⟩⟩

theorem foldl_insertKey_eq_nil_iff : ks.foldl insertKey [] = [] ↔ ks = [] := by
  rw [eq_nil_iff_forall_not_mem, eq_nil_iff_forall_not_mem]
  exact forall_congr' fun k => not_congr (by simp [mem_foldl_insertKey])

/-- The buckets of a response: those with rows and those that are filled. -/
def Shown (calendar : Calendar) (granularity : GranularitySpec) (intervals : List (Int64 × Int64)) (buckets : List ℤ) (k : ℤ) : Prop :=
  k ∈ buckets ∨
    match uniformPeriodMs granularity with
    | none => buckets = [] ∧ isAllGranularity granularity = true ∧ ∃ interval ∈ intervals, k = bucketTimestamp calendar interval.1 granularity
    | some periodMs => (buckets = [] ∧ ∃ interval ∈ intervals, k = bucketTimestamp calendar interval.1 granularity) ∨ Filled periodMs buckets k

variable {calendar : Calendar} {granularity : GranularitySpec} {intervals : List (Int64 × Int64)} {buckets : List ℤ} {k : ℤ}

theorem mem_intervalKeys : k ∈ intervalKeys calendar granularity intervals keys ↔
    (∃ interval ∈ intervals, k = bucketTimestamp calendar interval.1 granularity) ∨ k ∈ keys := by
  rw [intervalKeys_eq, mem_foldl_insertKey, mem_map]
  simp only [eq_comm]

theorem mem_expandWithEmptyBuckets (hvalid : validateGranularity granularity = .ok ()) :
    k ∈ expandWithEmptyBuckets calendar buckets granularity intervals ↔ Shown calendar granularity intervals buckets k := by
  unfold expandWithEmptyBuckets Shown
  simp only [foldl_insertKey_eq_nil_iff]
  cases hperiod : uniformPeriodMs granularity with
  | none =>
    dsimp only
    split_ifs with hnone
    · obtain ⟨rfl, hall⟩ := hnone
      simp [mem_intervalKeys, hall]
    · rw [mem_foldl_insertKey]
      rw [not_and] at hnone
      refine or_congr_right ⟨fun h => absurd h not_mem_nil, ?_⟩
      rintro ⟨hnil, hall, -⟩
      exact absurd hall (hnone hnil)
  | some periodMs =>
    dsimp only
    split_ifs with hnil
    · subst hnil
      simp [mem_intervalKeys, Filled]
    · rw [mem_filledGroups (uniformPeriodMs_pos hvalid hperiod), mem_foldl_insertKey]
      simp [hnil, or_comm]

theorem pairwise_expandWithEmptyBuckets : (expandWithEmptyBuckets calendar buckets granularity intervals).Pairwise (· < ·) := by
  have hout : (buckets.foldl insertKey []).Pairwise (· < ·) := pairwise_foldl_insertKey .nil
  have hkeys : (intervalKeys calendar granularity intervals (buckets.foldl insertKey [])).Pairwise (· < ·) := by
    rw [intervalKeys_eq]
    exact pairwise_foldl_insertKey hout
  have hgroups : ∀ (ranges : List (ℤ × ℤ)) (periodMs : ℤ) (out : List ℤ), out.Pairwise (· < ·) →
      (ranges.foldl (fun out range => (fillRange periodMs range).foldl insertKey out) out).Pairwise (· < ·) := by
    intro ranges periodMs
    induction ranges with
    | nil => exact fun _ h => h
    | cons range ranges ih => exact fun out h => ih _ (pairwise_foldl_insertKey h)
  unfold expandWithEmptyBuckets
  simp only
  split
  · split_ifs
    · exact hkeys
    · exact hout
  · split_ifs
    · exact hkeys
    · exact hgroups _ _ _ hout

end FerroDruid.Query
