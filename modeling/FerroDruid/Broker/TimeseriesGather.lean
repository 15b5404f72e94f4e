import FerroDruid.Query.TimeseriesResult
import Mathlib.Data.List.Flatten
/-!
# Timeseries of many segments

`merge_timeseries` and `merge_results` of `ferrodruid-broker/src/lib.rs` for
timeseries queries. `bucket_map` and `ts_order` are one list of entries.
-/

namespace FerroDruid.Broker

open Lib Query Aggregator List

def mergeTimeseries (legacy : Bool) (aggregations : List AggregatorSpec) (partials : List (List TimeseriesResult)) : List TimeseriesResult :=
  let entries := partials.flatten.map fun entry => (entry.timestamp, entry.result)
  (entries.foldl (upsert (mergeAggMaps legacy aggregations) .empty) []).map fun entry => ⟨entry.1, entry.2⟩

/-- A single partial result is the result; merged ones have their post-aggregations
computed again. -/
def mergeTimeseriesResults (legacy : Bool) (q : TimeseriesQuery) (partials : List (List TimeseriesResult)) : List TimeseriesResult :=
  match partials with
  | [] => []
  | [partial_] => partial_
  | partials => (mergeTimeseries legacy q.aggregations partials).map fun entry =>
      { entry with result := applyPostAggs q.postAggregations entry.result }

def gatherTimeseries (runtime : Runtime) (q : TimeseriesQuery) (segments : List TypedSegment) : Except DruidError (List TimeseriesResult) := do
  let partials ← segments.mapM (q.execute runtime)
  .ok (mergeTimeseriesResults runtime.legacy q partials)

/-! ## Gathered timeseries

The merge keeps buckets in the order of their arrival, and each segment fills its
own gaps. So a gathered timeseries is that of all rows exactly where the segments'
buckets arrive in the order of the query and are those of all rows, and the values
that meet in a bucket are added without loss. -/

open TimeseriesQuery

variable {runtime : Runtime} {q : TimeseriesQuery} {virtualColumns : VirtualColumns} {intervals : List (Int64 × Int64)}
  {whole : TypedSegment} {segments : List TypedSegment} {merged expected : List TimeseriesResult}

section

variable (runtime : Runtime) (q : TimeseriesQuery) (virtualColumns : VirtualColumns) (intervals : List (Int64 × Int64))

/-- The segments have the rows of the whole one, each row with the same verdict. -/
def IsPartition (whole : TypedSegment) (segments : List TypedSegment) : Prop :=
  (q.rowViews runtime virtualColumns whole).Perm (segments.map (q.rowViews runtime virtualColumns)).flatten

/-- The buckets of a segment's matching rows. -/
def rowBuckets (segment : TypedSegment) : List ℤ :=
  ((q.rowViews runtime virtualColumns segment).filter (Matches intervals)).map (q.bucketOf runtime)

/-- Empty buckets are filled, but not over typed columns. -/
def FillsEmpty (segment : TypedSegment) : Prop :=
  q.skipEmptyBuckets = false ∧ q.vectorized runtime virtualColumns segment = false

/-- The buckets due for a segment: those of its matching rows, those of the
intervals' starts when no row matches, and those between two of its rows in one
coarser period, in step with the first. -/
inductive Due (segment : TypedSegment) : ℤ → Prop
  | row {k : ℤ} (hrow : k ∈ rowBuckets runtime q virtualColumns intervals segment) : Due segment k
  | start {interval : Int64 × Int64} (hfills : FillsEmpty runtime q virtualColumns segment)
      (hnone : rowBuckets runtime q virtualColumns intervals segment = [])
      (hgranularity : isAllGranularity q.granularity = true ∨ (uniformPeriodMs q.granularity).isSome) (hinterval : interval ∈ intervals) :
      Due segment (bucketTimestamp runtime.calendar interval.1 q.granularity)
  | gap {periodMs lo hi : ℤ} {i : ℕ} (hfills : FillsEmpty runtime q virtualColumns segment) (hperiod : uniformPeriodMs q.granularity = some periodMs)
      (hlo : lo ∈ rowBuckets runtime q virtualColumns intervals segment) (hhi : hi ∈ rowBuckets runtime q virtualColumns intervals segment)
      (hgroup : macroKey periodMs hi = macroKey periodMs lo)
      (hleast : ∀ b ∈ rowBuckets runtime q virtualColumns intervals segment, macroKey periodMs b = macroKey periodMs lo → lo ≤ b)
      (hle : lo + i * periodMs ≤ hi) : Due segment (lo + i * periodMs)

/-- No segment adds a bucket that all rows do not have, and none is left out. -/
def SameBuckets (whole : TypedSegment) (segments : List TypedSegment) : Prop :=
  ∀ k, Due runtime q virtualColumns intervals whole k ↔ ∃ segment ∈ segments, Due runtime q virtualColumns intervals segment k

/-- The buckets that a segment adds come after all buckets before it. -/
def BucketsInOrder (segments : List TypedSegment) : Prop :=
  ∀ pre segment post, segments = pre ++ segment :: post → ∀ k, Due runtime q virtualColumns intervals segment k →
    (∀ s ∈ pre, ¬ Due runtime q virtualColumns intervals s k) → ∀ s ∈ pre, ∀ k', Due runtime q virtualColumns intervals s k' →
      before q.descending k' k

/-- The matching rows of a segment in a bucket. -/
def rowsIn (segment : TypedSegment) (k : ℤ) : List JsonMap := q.bucketRows runtime intervals (q.rowViews runtime virtualColumns segment) k

open Classical in
/-- The values of the segments that a bucket is due for merge exactly. -/
def ValuesMerge (segments : List TypedSegment) : Prop :=
  ∀ segment ∈ segments, ∀ k, Due runtime q virtualColumns intervals segment k → ∀ name, ∀ spec ∈ specByName q.aggregations name,
    MergesExactly runtime.legacy spec.kind ((segments.filter fun s => Due runtime q virtualColumns intervals s k).map fun s =>
      (rowsIn runtime q virtualColumns intervals s k).map (spec.fed runtime.legacy))

end

/-! ## Merging -/

theorem filter_timestamp {keys : List ℤ} (hformat : Function.Injective runtime.formatEpochMillis) (hnodup : keys.Nodup) (value : ℤ → JsonMap) (k : ℤ) :
    ((keys.map fun k => (runtime.formatEpochMillis k, value k)).filter (·.1 = runtime.formatEpochMillis k)).map (·.2) =
      if k ∈ keys then [value k] else [] := by
  induction keys with
  | nil => rfl
  | cons k' keys ih =>
    obtain ⟨hk', hnodup⟩ := nodup_cons.1 hnodup
    rw [map_cons]
    by_cases hk : k' = k
    · subst hk
      rw [filter_cons_of_pos (by simp), map_cons, ih hnodup, if_neg hk', if_pos (mem_cons_self ..)]
    · rw [filter_cons_of_neg (by simpa [hformat.eq_iff] using hk), ih hnodup]
      simp [Ne.symm hk]

/-- Merged results: the buckets in the order of their arrival, each with the maps of
the segments that have it. -/
theorem mergeTimeseries_eq (hformat : Function.Injective runtime.formatEpochMillis) (keys : TypedSegment → List ℤ)
    (value : TypedSegment → ℤ → JsonMap) (segments : List TypedSegment) (hnodup : ∀ segment ∈ segments, (keys segment).Nodup) :
    mergeTimeseries runtime.legacy q.aggregations (segments.map fun segment => (keys segment).map fun k =>
      ⟨runtime.formatEpochMillis k, value segment k⟩) =
      (arrival (segments.map keys)).map fun k => ⟨runtime.formatEpochMillis k,
        ((segments.filter fun segment => k ∈ keys segment).map (value · k)).foldl (mergeAggMaps runtime.legacy q.aggregations) .empty⟩ := by
  have hentries : ((segments.map fun segment => (keys segment).map fun k =>
      (⟨runtime.formatEpochMillis k, value segment k⟩ : TimeseriesResult)).flatten.map fun entry => (entry.timestamp, entry.result)) =
      (segments.map fun segment => (keys segment).map fun k => (runtime.formatEpochMillis k, value segment k)).flatten := by
    rw [map_flatten, map_map]
    congr 2
    funext segment
    simp [Function.comp_def]
  have hkeys : ((segments.map fun segment => (keys segment).map fun k => (runtime.formatEpochMillis k, value segment k)).flatten.map (·.1)) =
      (segments.map keys).flatten.map runtime.formatEpochMillis := by
    rw [map_flatten, map_flatten, map_map, map_map]
    congr 2
    funext segment
    simp [Function.comp_def]
  have hvalues : ∀ k, (((segments.map fun segment => (keys segment).map fun k => (runtime.formatEpochMillis k, value segment k)).flatten.filter
      (·.1 = runtime.formatEpochMillis k)).map (·.2)) = (segments.filter fun segment => k ∈ keys segment).map (value · k) := fun k => by
    clear hentries hkeys
    induction segments with
    | nil => rfl
    | cons segment segments ih =>
      rw [map_cons, flatten_cons, filter_append, map_append, filter_timestamp hformat (hnodup _ (mem_cons_self ..)),
        ih fun s hs => hnodup s (mem_cons_of_mem _ hs)]
      by_cases hk : k ∈ keys segment
      · simp [hk]
      · simp [hk]
  have hfirsts : firsts ((segments.map keys).flatten.map runtime.formatEpochMillis) = (arrival (segments.map keys)).map runtime.formatEpochMillis := by
    rw [firsts_map hformat, firsts_flatten (by simpa using hnodup)]
  unfold mergeTimeseries
  simp only [hentries, foldl_upsert, hkeys, hfirsts, map_map, Function.comp_def, hvalues]

/-! ## Buckets and their values -/

variable {segment : TypedSegment}

theorem due_of_skip (hskip : q.skipEmptyBuckets = true) {k : ℤ} :
    Due runtime q virtualColumns intervals segment k ↔ k ∈ rowBuckets runtime q virtualColumns intervals segment := by
  refine ⟨fun h => ?_, .row⟩
  cases h with
  | row hrow => exact hrow
  | start hfills => exact absurd hfills.1 (by simp [hskip])
  | gap hfills => exact absurd hfills.1 (by simp [hskip])

/-- A segment shows the buckets that are due. -/
theorem shownOver_iff_due {k : ℤ} :
    q.ShownOver runtime intervals (q.vectorized runtime virtualColumns segment) (q.rowViews runtime virtualColumns segment) k ↔
      Due runtime q virtualColumns intervals segment k := by
  unfold ShownOver
  split_ifs with hshow
  · refine ⟨.row, fun h => ?_⟩
    have hnot : ¬ FillsEmpty runtime q virtualColumns segment := fun ⟨hskip, hvectorized⟩ => by simp [hskip, hvectorized] at hshow
    cases h with
    | row hrow => exact hrow
    | start hfills => exact absurd hfills hnot
    | gap hfills => exact absurd hfills hnot
  · have hfills : FillsEmpty runtime q virtualColumns segment := by
      simp only [Bool.or_eq_true, not_or, Bool.not_eq_true] at hshow
      exact ⟨hshow.2, hshow.1⟩
    constructor
    · rintro (hrow | hshown)
      · exact .row hrow
      · cases hperiod : uniformPeriodMs q.granularity with
        | none =>
          rw [hperiod] at hshown
          obtain ⟨hnone, hall, interval, hinterval, rfl⟩ := hshown
          exact .start hfills hnone (.inl hall) hinterval
        | some periodMs =>
          rw [hperiod] at hshown
          rcases hshown with ⟨hnone, interval, hinterval, rfl⟩ | ⟨lo, hlo, hi, hhi, hgroup, hleast, hle, i, rfl⟩
          · exact .start hfills hnone (.inr (by rw [hperiod]; rfl)) hinterval
          · exact .gap hfills hperiod hlo hhi hgroup hleast hle
    · intro h
      cases h with
      | row hrow => exact .inl hrow
      | start _ hnone hgranularity hinterval =>
        right
        cases hperiod : uniformPeriodMs q.granularity with
        | none => exact ⟨hnone, hgranularity.resolve_right (by simp [hperiod]), _, hinterval, rfl⟩
        | some periodMs => exact .inl ⟨hnone, _, hinterval, rfl⟩
      | gap _ hperiod hlo hhi hgroup hleast hle =>
        right
        rw [hperiod]
        exact .inr ⟨_, hlo, _, hhi, hgroup, hleast, hle, _, rfl⟩

/-- A segment has no rows in a bucket that is not due for it. -/
theorem rowsIn_of_not_due {k : ℤ} (h : ¬ Due runtime q virtualColumns intervals segment k) :
    rowsIn runtime q virtualColumns intervals segment k = [] := by
  unfold rowsIn bucketRows
  rw [map_eq_nil_iff, filter_eq_nil_iff]
  intro view hview hk
  exact h (.row (mem_map.2 ⟨view, hview, of_decide_eq_true hk⟩))

theorem rowsIn_perm (hpartition : IsPartition runtime q virtualColumns whole segments) (k : ℤ) :
    (rowsIn runtime q virtualColumns intervals whole k).Perm (segments.map fun segment =>
      rowsIn runtime q virtualColumns intervals segment k).flatten := by
  have hflatten : (segments.map fun segment => rowsIn runtime q virtualColumns intervals segment k).flatten =
      q.bucketRows runtime intervals (segments.map (q.rowViews runtime virtualColumns)).flatten k := by
    unfold rowsIn bucketRows
    rw [filter_flatten, filter_flatten, map_flatten, map_map, map_map, map_map]
    rfl
  rw [hflatten]
  exact ((hpartition.filter _).filter _).map _

theorem resultMap_perm {rows rows' : List JsonMap} (h : rows.Perm rows') : q.resultMap runtime rows = q.resultMap runtime rows' := by
  rw [resultMap, resultMap, rowsMap_perm h]

/-- The merged values of a bucket are those of all rows exactly if they merge exactly. -/
theorem merged_value_iff {k : ℤ} (due : TypedSegment → Bool) (hpartition : IsPartition runtime q virtualColumns whole segments)
    (hplain : PlainPostAggs q.aggregations q.postAggregations)
    (hdue : ∀ segment ∈ segments, due segment = true ↔ Due runtime q virtualColumns intervals segment k)
    (hsome : ∃ segment ∈ segments, due segment = true) :
    applyPostAggs q.postAggregations (((segments.filter due).map fun segment =>
      q.resultMap runtime (rowsIn runtime q virtualColumns intervals segment k)).foldl
        (mergeAggMaps runtime.legacy q.aggregations) .empty) =
      q.resultMap runtime (rowsIn runtime q virtualColumns intervals whole k) ↔
    ∀ name, ∀ spec ∈ specByName q.aggregations name, MergesExactly runtime.legacy spec.kind
      ((segments.filter due).map fun s => (rowsIn runtime q virtualColumns intervals s k).map (spec.fed runtime.legacy)) := by
  have hempty : ∀ segment ∈ segments, due segment = false → rowsIn runtime q virtualColumns intervals segment k = [] := fun segment hsegment hnot =>
    rowsIn_of_not_due fun h => by rw [(hdue segment hsegment).2 h] at hnot; exact absurd hnot nofun
  have hrows : (rowsIn runtime q virtualColumns intervals whole k).Perm
      ((segments.filter due).map fun segment => rowsIn runtime q virtualColumns intervals segment k).flatten := by
    rw [flatten_map_filter hempty]
    exact rowsIn_perm hpartition k
  rw [resultMap_perm hrows]
  have hmap : (segments.filter due).map (fun segment => q.resultMap runtime (rowsIn runtime q virtualColumns intervals segment k)) =
      ((segments.filter due).map fun segment => rowsIn runtime q virtualColumns intervals segment k).map (q.resultMap runtime) := by
    rw [map_map]
    rfl
  have hfed : ∀ spec : AggregatorSpec, (segments.filter due).map (fun s =>
    (rowsIn runtime q virtualColumns intervals s k).map (spec.fed runtime.legacy)) =
      ((segments.filter due).map fun segment =>
        rowsIn runtime q virtualColumns intervals segment k).map (·.map (spec.fed runtime.legacy)) := fun spec => by
    rw [map_map]
    rfl
  simp only [hmap, hfed]
  cases hfilter : (segments.filter due).map fun segment => rowsIn runtime q virtualColumns intervals segment k with
  | nil =>
    obtain ⟨segment, hsegment, hk⟩ := hsome
    rw [map_eq_nil_iff, filter_eq_nil_iff] at hfilter
    exact absurd hk (hfilter segment hsegment)
  | cons first rest => exact merged_parts_iff hplain first rest

/-! ## The gathered result -/

/-- What each segment returns, under the keys that are due. -/
theorem exists_keys (hvirtual : q.virtualColumns = .ok virtualColumns) (hsettled : Settled virtualColumns)
    (hintervals : parseIntervals runtime.parseIsoMillis q.intervals = .ok intervals) {partials : List (List TimeseriesResult)}
    (hok : segments.mapM (q.execute runtime) = .ok partials) :
    ∃ keys : TypedSegment → List ℤ, (∀ segment ∈ segments, (keys segment).Pairwise (before q.descending) ∧
        ∀ k, k ∈ keys segment ↔ Due runtime q virtualColumns intervals segment k) ∧
      partials = segments.map fun segment => (keys segment).map fun k =>
        ⟨runtime.formatEpochMillis k, q.resultMap runtime (rowsIn runtime q virtualColumns intervals segment k)⟩ := by
  have hsegment : ∀ segment : TypedSegment, ∃ keys : List ℤ, ∀ results, q.execute runtime segment = .ok results →
      keys.Pairwise (before q.descending) ∧ (∀ k, k ∈ keys ↔ Due runtime q virtualColumns intervals segment k) ∧
        results = keys.map fun k => ⟨runtime.formatEpochMillis k, q.resultMap runtime (rowsIn runtime q virtualColumns intervals segment k)⟩ := by
    intro segment
    cases hexecute : q.execute runtime segment with
    | error e => exact ⟨[], nofun⟩
    | ok results =>
      obtain ⟨keys, hkeys⟩ := execute_eq hvirtual hsettled hintervals hexecute
      simp only [shownOver_iff_due] at hkeys
      exact ⟨keys, fun _ h => Except.ok.inj h ▸ hkeys⟩
  choose keys hkeys using hsegment
  refine ⟨keys, fun segment hmem => ?_, (map_of_mapM hok fun segment results h => (hkeys segment results h).2.2.symm).symm⟩
  obtain ⟨results, hresults⟩ := forall_of_mapM hok segment hmem
  exact ⟨(hkeys segment results hresults).1, (hkeys segment results hresults).2.1⟩

instance (descending : Bool) : Std.Irrefl (before descending) where
  irrefl a := by cases descending <;> simp [before]

instance (descending : Bool) : Std.Asymm (before descending) where
  asymm a b := by
    cases descending <;> simp only [before, if_true, Bool.false_eq_true, if_false] <;> omega

/-- The keys that arrive are those of all rows exactly if the buckets are the same
and come in order. -/
theorem arrival_eq_keys {keys : TypedSegment → List ℤ} {wholeKeys : List ℤ}
    (hkeys : ∀ segment ∈ segments, (keys segment).Pairwise (before q.descending) ∧
      ∀ k, k ∈ keys segment ↔ Due runtime q virtualColumns intervals segment k)
    (hsorted : wholeKeys.Pairwise (before q.descending)) (hwhole : ∀ k, k ∈ wholeKeys ↔ Due runtime q virtualColumns intervals whole k) :
    arrival (segments.map keys) = wholeKeys ↔
      SameBuckets runtime q virtualColumns intervals whole segments ∧ BucketsInOrder runtime q virtualColumns intervals segments := by
  rw [arrival_eq_iff hsorted (by simpa using fun segment hsegment => (hkeys segment hsegment).1), and_comm]
  refine and_congr ?_ ?_
  · refine forall_congr' fun k => ?_
    simp only [hwhole, mem_map, exists_exists_and_eq_and]
    refine iff_congr Iff.rfl ⟨?_, ?_⟩
    · rintro ⟨segment, hsegment, hk⟩
      exact ⟨segment, hsegment, ((hkeys segment hsegment).2 k).1 hk⟩
    · rintro ⟨segment, hsegment, hk⟩
      exact ⟨segment, hsegment, ((hkeys segment hsegment).2 k).2 hk⟩
  · constructor
    · rintro h pre segment post rfl k hk hnew s hs k' hk'
      have hmem : ∀ s ∈ pre ++ segment :: post, ∀ k, k ∈ keys s ↔ Due runtime q virtualColumns intervals s k := fun s hs => (hkeys s hs).2
      have hpre : ∀ s ∈ pre, s ∈ pre ++ segment :: post := fun s hs => mem_append_left _ hs
      refine h (pre.map keys) (keys segment) (post.map keys) (by simp) k ((hmem segment (by simp) k).2 hk) ?_ (keys s) (mem_map_of_mem hs) k'
        ((hmem s (hpre s hs) k').2 hk')
      rintro p hp hkp
      obtain ⟨s, hs, rfl⟩ := mem_map.1 hp
      exact hnew s hs ((hmem s (hpre s hs) k).1 hkp)
    · intro h pre part post hsplit k hk hnew p hp k' hk'
      obtain ⟨pre, rest, rfl, rfl, hrest⟩ := map_eq_append_iff.1 hsplit
      obtain ⟨segment, post, rfl, rfl, rfl⟩ := map_eq_cons_iff.1 hrest
      obtain ⟨s, hs, rfl⟩ := mem_map.1 hp
      have hmem : ∀ s ∈ pre ++ segment :: post, ∀ k, k ∈ keys s ↔ Due runtime q virtualColumns intervals s k := fun s hs => (hkeys s hs).2
      have hpre : ∀ s ∈ pre, s ∈ pre ++ segment :: post := fun s hs => mem_append_left _ hs
      exact h pre segment post rfl k ((hmem segment (by simp) k).1 hk)
        (fun s hs hks => hnew (keys s) (mem_map_of_mem hs) ((hmem s (hpre s hs) k).2 hks)) s hs k' ((hmem s (hpre s hs) k').1 hk')

/-- The gathered result: the keys in the order of their arrival, with the values of
all rows where they merge exactly. -/
theorem merged_eq (hformat : Function.Injective runtime.formatEpochMillis) {keys : TypedSegment → List ℤ}
    (hkeys : ∀ segment ∈ segments, (keys segment).Pairwise (before q.descending) ∧
      ∀ k, k ∈ keys segment ↔ Due runtime q virtualColumns intervals segment k)
    (hpartition : IsPartition runtime q virtualColumns whole segments) :
    ∃ value : ℤ → JsonMap, mergeTimeseriesResults runtime.legacy q (segments.map fun segment => (keys segment).map fun k =>
        ⟨runtime.formatEpochMillis k, q.resultMap runtime (rowsIn runtime q virtualColumns intervals segment k)⟩) =
          (arrival (segments.map keys)).map (fun k => ⟨runtime.formatEpochMillis k, value k⟩) ∧
      ((1 < segments.length → PlainPostAggs q.aggregations q.postAggregations) →
        ((∀ k ∈ arrival (segments.map keys), value k = q.resultMap runtime (rowsIn runtime q virtualColumns intervals whole k)) ↔
          ValuesMerge runtime q virtualColumns intervals segments)) := by
  classical
  match segments, hkeys, hpartition with
  | [], _, _ => exact ⟨fun _ => .empty, rfl, fun _ => iff_of_true (fun k hk => absurd hk not_mem_nil) nofun⟩
  | [segment], hkeys, hpartition =>
    have hkeysEq : arrival ([segment].map keys) = keys segment := by simp [arrival, addNew]
    refine ⟨fun k => q.resultMap runtime (rowsIn runtime q virtualColumns intervals segment k), by rw [hkeysEq]; rfl,
      fun _ => iff_of_true (fun k _ => ?_) fun s hs k hk name spec _ => ?_⟩
    · have hrows := @rowsIn_perm _ _ _ intervals _ _ hpartition k
      rw [map_singleton, flatten_singleton] at hrows
      exact (resultMap_perm hrows).symm
    · -- nothing is merged
      obtain rfl := mem_singleton.1 hs
      rw [filter_eq_self.2 fun s' hs' => by rw [mem_singleton.1 hs']; exact decide_eq_true hk]
      exact mergesExactly_singleton _
  | first :: second :: rest, hkeys, hpartition =>
    have hmany : ∀ f : TypedSegment → List TimeseriesResult, mergeTimeseriesResults runtime.legacy q ((first :: second :: rest).map f) =
        (mergeTimeseries runtime.legacy q.aggregations ((first :: second :: rest).map f)).map fun entry =>
          { entry with result := applyPostAggs q.postAggregations entry.result } := fun _ => rfl
    have hlength : 1 < (first :: second :: rest).length := by simp
    generalize first :: second :: rest = segments at *
    have hnodup : ∀ segment ∈ segments, (keys segment).Nodup := fun segment hsegment => (hkeys segment hsegment).1.nodup
    refine ⟨fun k => applyPostAggs q.postAggregations (((segments.filter fun segment => k ∈ keys segment).map fun segment =>
      q.resultMap runtime (rowsIn runtime q virtualColumns intervals segment k)).foldl (mergeAggMaps runtime.legacy q.aggregations) .empty), ?_, ?_⟩
    · rw [hmany, mergeTimeseries_eq hformat keys (fun segment k => q.resultMap runtime (rowsIn runtime q virtualColumns intervals segment k))
        segments hnodup, map_map]
      rfl
    · intro hplain
      have hfilter : ∀ k, (segments.filter fun segment => k ∈ keys segment) =
          segments.filter fun segment => Due runtime q virtualColumns intervals segment k := fun k =>
        filter_congr fun segment hsegment => by rw [decide_eq_decide, (hkeys segment hsegment).2]
      have hvalue := fun k hsome => merged_value_iff (k := k) (fun segment => Due runtime q virtualColumns intervals segment k) hpartition
        (hplain hlength) (fun _ _ => decide_eq_true_iff) hsome
      simp only [hfilter]
      constructor
      · intro h segment hsegment k hk
        exact (hvalue k ⟨segment, hsegment, decide_eq_true hk⟩).1
          (h k (mem_arrival.2 ⟨_, mem_map_of_mem hsegment, ((hkeys segment hsegment).2 k).2 hk⟩))
      · intro h k hk
        obtain ⟨part, hpart, hk⟩ := mem_arrival.1 hk
        obtain ⟨segment, hsegment, rfl⟩ := mem_map.1 hpart
        rw [(hkeys segment hsegment).2] at hk
        exact (hvalue k ⟨segment, hsegment, decide_eq_true hk⟩).2 (h segment hsegment k hk)

/-- Some text for a time that is not printed. -/
def markTime (k : ℤ) : List Char := .replicate k.natAbs (if 0 ≤ k then '+' else '-')

/-- The two hours as `chrono` prints them. -/
def formatTwoHours (k : ℤ) : String :=
  if k = 0 then "1970-01-01T00:00:00.000Z" else if k = 3600000 then "1970-01-01T01:00:00.000Z" else .ofList (markTime k)

theorem not_mem_markTime (k : ℤ) : '1' ∉ markTime k := fun h => by
  have hchar := eq_of_mem_replicate h
  split_ifs at hchar <;> exact absurd hchar (by decide)

theorem markTime_injective : Function.Injective markTime := by
  intro a b h
  have hlength : a.natAbs = b.natAbs := by simpa [markTime] using congrArg List.length h
  by_cases hzero : a.natAbs = 0
  · omega
  · have hsign : (if 0 ≤ a then '+' else '-') = if 0 ≤ b then '+' else '-' := by
      have hmem : (if 0 ≤ a then '+' else '-') ∈ markTime b := by
        rw [← h, markTime]
        exact mem_replicate.2 ⟨hzero, rfl⟩
      exact eq_of_mem_replicate hmem
    split_ifs at hsign <;> first | omega | exact absurd hsign (by decide)

theorem formatTwoHours_injective : Function.Injective formatTwoHours := by
  have hcases : ∀ k, (k = 0 ∧ (formatTwoHours k).toList = "1970-01-01T00:00:00.000Z".toList) ∨
      (k = 3600000 ∧ (formatTwoHours k).toList = "1970-01-01T01:00:00.000Z".toList) ∨ (formatTwoHours k).toList = markTime k := fun k => by
    unfold formatTwoHours
    split_ifs with h h'
    · exact .inl ⟨h, rfl⟩
    · exact .inr (.inl ⟨h', rfl⟩)
    · exact .inr (.inr String.toList_ofList)
  have hdigit : ∀ k, '1' ∈ (formatTwoHours k).toList → k = 0 ∨ k = 3600000 := fun k hk => by
    rcases hcases k with ⟨h, -⟩ | ⟨h, -⟩ | h
    · exact .inl h
    · exact .inr h
    · exact absurd (h ▸ hk) (not_mem_markTime k)
  intro a b h
  have hlist := congrArg String.toList h
  rcases hcases a with ⟨rfl, ha⟩ | ⟨rfl, ha⟩ | ha
  · rcases hdigit b (by rw [← hlist, ha]; decide) with rfl | rfl
    · rfl
    · exact absurd h (by decide)
  · rcases hdigit b (by rw [← hlist, ha]; decide) with rfl | rfl
    · exact absurd h (by decide)
    · rfl
  · rcases hcases b with ⟨rfl, hb⟩ | ⟨rfl, hb⟩ | hb
    · exact absurd (show '1' ∈ markTime a by rw [← ha, hlist, hb]; decide) (not_mem_markTime a)
    · exact absurd (show '1' ∈ markTime a by rw [← ha, hlist, hb]; decide) (not_mem_markTime a)
    · exact markTime_injective (by rw [← ha, ← hb, hlist])

def twoHours : Runtime where
  legacy := false
  calendar := ⟨fun _ => 0, fun _ => 0, fun _ => 0⟩
  parseIsoMillis _ := none
  formatEpochMillis := formatTwoHours

/-- The rows of each hour are counted. -/
def hourly (descending : Bool) : TimeseriesQuery where
  intervals := []
  granularity := .simple "hour"
  filter := none
  virtualColumns := .ok .none
  aggregations := [⟨"rows", .count, ""⟩]
  postAggregations := []
  descending := descending
  skipEmptyBuckets := true

theorem settled_none : Settled .none := fun base stale h => by
  have hrow : updateRow base stale = base := funext fun name => by
    unfold updateRow
    cases hname : base name with
    | none => exact h name hname not_mem_nil
    | some value => rfl
  rw [hrow]

theorem due_hourly (ts : List Int64) (buckets : List ℤ) (h : ts.map (bucketFixed 3600000) = buckets)
    (hrows : rowBuckets twoHours (hourly false) .none [] (.ofTimes ts) = ts.map (bucketFixed 3600000)) (k : ℤ) :
    Due twoHours (hourly false) .none [] (.ofTimes ts) k ↔ k ∈ buckets := by
  rw [due_of_skip rfl, hrows, h]

end FerroDruid.Broker
