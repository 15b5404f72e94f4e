import FerroDruid.Query.Timeseries
/-!
# What a timeseries query returns

Both ways through `execute` come to one answer: the shown buckets in order, each
with the results of the aggregations over its matching rows.
-/

namespace FerroDruid.Query

open Lib Aggregator

/-- A row as the query sees it. -/
structure RowView where
  ts : Int64
  accepted : Bool
  row : JsonMap

namespace TimeseriesQuery

variable {runtime : Runtime} {q : TimeseriesQuery} {virtualColumns : VirtualColumns} {segment : TypedSegment}
  {intervals : List (Int64 × Int64)}

/-- A virtual column does not read what it or a later one had in the row before. -/
def Settled (virtualColumns : VirtualColumns) : Prop :=
  ∀ base stale, (∀ name, base name = none → name ∉ virtualColumns.names → stale name = none) →
    virtualColumns.augmentRow (updateRow base stale) = virtualColumns.augmentRow base

/-! ## Rows -/

def timeOf (segment : TypedSegment) (rowIdx : ℕ) : Int64 := segment.timestamps[rowIdx]?.getD 0

def scanned (segment : TypedSegment) : ℕ := min segment.numRows segment.timestamps.length

/-- Whether the query runs over typed columns. -/
def vectorized (runtime : Runtime) (q : TimeseriesQuery) (virtualColumns : VirtualColumns) (segment : TypedSegment) : Bool :=
  virtualColumns.names = [] ∧ isAllGranularity q.granularity = true ∧ runtime.legacy = false ∧
    (q.aggregations.mapM (plan segment)).isSome ∧ (q.compileVectorizedFilter segment).isSome

/-- The filter's verdict in the loop over row maps. -/
def loopAccepts (q : TimeseriesQuery) (virtualColumns : VirtualColumns) (segment : TypedSegment) (rowIdx : ℕ) : Bool :=
  q.typedVerdict virtualColumns segment rowIdx != some false &&
    q.matchesRow virtualColumns segment rowIdx (virtualColumns.augmentRow (segment.row rowIdx))

/-- The filter's verdict compiled for all rows. -/
def compiledAccepts (q : TimeseriesQuery) (segment : TypedSegment) (rowIdx : ℕ) : Bool :=
  match q.compileVectorizedFilter segment with
  | some compiled => evalCompiled compiled rowIdx
  | none => true

def rowView (runtime : Runtime) (q : TimeseriesQuery) (virtualColumns : VirtualColumns) (segment : TypedSegment) (rowIdx : ℕ) : RowView where
  ts := timeOf segment rowIdx
  accepted := if q.vectorized runtime virtualColumns segment then q.compiledAccepts segment rowIdx else q.loopAccepts virtualColumns segment rowIdx
  row := virtualColumns.augmentRow (segment.row rowIdx)

def rowViews (runtime : Runtime) (q : TimeseriesQuery) (virtualColumns : VirtualColumns) (segment : TypedSegment) : List RowView :=
  (List.range (scanned segment)).map (q.rowView runtime virtualColumns segment)

def Matches (intervals : List (Int64 × Int64)) (view : RowView) : Bool := inIntervals intervals view.ts && view.accepted

def bucketOf (runtime : Runtime) (q : TimeseriesQuery) (view : RowView) : ℤ := bucketTimestamp runtime.calendar view.ts q.granularity

/-- The matching rows of a bucket. -/
def bucketRows (runtime : Runtime) (q : TimeseriesQuery) (intervals : List (Int64 × Int64)) (views : List RowView) (k : ℤ) : List JsonMap :=
  ((views.filter (Matches intervals)).filter (q.bucketOf runtime · = k)).map (·.row)

/-- The result map of a bucket's rows. -/
def resultMap (runtime : Runtime) (q : TimeseriesQuery) (rows : List JsonMap) : JsonMap :=
  applyPostAggs q.postAggregations (rowsMap runtime.legacy q.aggregations rows)

/-- The buckets of a response over some rows. -/
def ShownOver (runtime : Runtime) (q : TimeseriesQuery) (intervals : List (Int64 × Int64)) (vectorized : Bool) (views : List RowView) (k : ℤ) :
    Prop :=
  let buckets := (views.filter (Matches intervals)).map (q.bucketOf runtime)
  if vectorized || q.skipEmptyBuckets then k ∈ buckets else Shown runtime.calendar q.granularity intervals buckets k

def before (descending : Bool) (a b : ℤ) : Prop := if descending then b < a else a < b

theorem zipIdx_take (segment : TypedSegment) :
    segment.timestamps.zipIdx.take segment.numRows = (List.range (scanned segment)).map fun rowIdx => (timeOf segment rowIdx, rowIdx) := by
  apply List.ext_getElem?
  intro i
  rw [List.getElem?_take, List.getElem?_map]
  by_cases hi : i < scanned segment
  · have hlt : i < segment.numRows ∧ i < segment.timestamps.length := lt_min_iff.1 hi
    rw [if_pos hlt.1, List.getElem?_zipIdx, List.getElem?_range hi, List.getElem?_eq_getElem hlt.2]
    simp [timeOf, hlt.2]
  · rw [List.getElem?_eq_none (l := List.range (scanned segment)) (by simpa using hi)]
    split_ifs with hrows
    · have hlength : segment.timestamps.length ≤ i := by
        by_contra hlt
        exact hi (lt_min hrows (not_le.1 hlt))
      rw [List.getElem?_eq_none (by simpa using hlength)]
      rfl
    · rfl

/-! ## The loop -/

def feedView (runtime : Runtime) (q : TimeseriesQuery) (aggs : List LiveAggregator) (view : RowView) : List LiveAggregator :=
  q.feedAggs runtime aggs view.row

def loopView (q : TimeseriesQuery) (virtualColumns : VirtualColumns) (segment : TypedSegment) (rowIdx : ℕ) : RowView where
  ts := timeOf segment rowIdx
  accepted := q.loopAccepts virtualColumns segment rowIdx
  row := virtualColumns.augmentRow (segment.row rowIdx)

/-- The loop groups the matching rows. -/
theorem rowLoop_eq (hsettled : Settled virtualColumns) (rows : List ℕ) (stale : JsonMap) (buckets : HashMap ℤ (List LiveAggregator))
    (hstale : ∀ rowIdx name, segment.row rowIdx name = none → name ∉ virtualColumns.names → stale name = none) :
    q.rowLoop runtime virtualColumns segment intervals (rows.map fun rowIdx => (timeOf segment rowIdx, rowIdx)) stale buckets =
      groupFold (q.bucketOf runtime) (fun _ => q.createAggs) (q.feedView runtime)
        ((rows.map (q.loopView virtualColumns segment)).filter (Matches intervals)) buckets := by
  induction rows generalizing stale buckets with
  | nil => rfl
  | cons rowIdx rows ih =>
    have haugment := hsettled (segment.row rowIdx) stale (hstale rowIdx)
    -- the row map after this row has no columns but those of the segment
    have hnext : ∀ rowIdx' name, segment.row rowIdx' name = none → name ∉ virtualColumns.names →
        virtualColumns.augmentRow (segment.row rowIdx) name = none := fun rowIdx' name hnone hname => by
      rw [virtualColumns.kept _ _ hname]
      exact segment.uniform rowIdx' rowIdx name hnone
    rw [List.map_cons, List.map_cons, rowLoop]
    by_cases hskip : inIntervals intervals (timeOf segment rowIdx) = false ∨ q.typedVerdict virtualColumns segment rowIdx = some false
    · have hnot : Matches intervals (q.loopView virtualColumns segment rowIdx) = false := by
        rcases hskip with h | h <;> simp [Matches, loopView, loopAccepts, h]
      rw [if_pos hskip, ih _ _ hstale, List.filter_cons_of_neg (by simp [hnot])]
    · rw [if_neg hskip, haugment]
      rw [not_or] at hskip
      have hmatches : Matches intervals (q.loopView virtualColumns segment rowIdx) =
          q.matchesRow virtualColumns segment rowIdx (virtualColumns.augmentRow (segment.row rowIdx)) := by
        simp [Matches, loopView, loopAccepts, hskip.1, hskip.2]
      by_cases haccept : q.matchesRow virtualColumns segment rowIdx (virtualColumns.augmentRow (segment.row rowIdx)) = true
      · rw [if_pos haccept, ih _ _ hnext, List.filter_cons_of_pos (by rw [hmatches, haccept])]
        rfl
      · rw [if_neg haccept, ih _ _ hnext, List.filter_cons_of_neg (by rw [hmatches]; exact haccept)]

theorem foldl_feedView (views : List RowView) (init : AggregatorSpec → LiveAggregator) :
    views.foldl (q.feedView runtime) (q.aggregations.map init) =
      q.aggregations.map fun spec => ((views.map (·.row)).map (spec.fed runtime.legacy)).foldl (fun a value => a.aggregate value) (init spec) := by
  rw [← foldl_feedRow, List.foldl_map]
  rfl

theorem zipMap_map (aggregations : List AggregatorSpec) (value : AggregatorSpec → Json) :
    zipMap aggregations (aggregations.map value) = valueMap aggregations value := by
  rw [zipMap, valueMap, List.zip_map_right, List.foldl_map, List.zip, List.zipWith_self, List.foldl_map]
  rfl

/-- A bucket without rows has the results of no rows. -/
theorem emptyBucketValue_eq (spec : AggregatorSpec) : emptyBucketValue runtime spec = run runtime.legacy spec.kind [] := by
  unfold emptyBucketValue
  cases hlegacy : runtime.legacy <;> cases spec.kind <;> rfl

theorem bucketResult_eq (views : List RowView) (k : ℤ) :
    q.bucketResult runtime (groupFold (q.bucketOf runtime) (fun _ => q.createAggs) (q.feedView runtime) (views.filter (Matches intervals)) ∅) k =
      ⟨runtime.formatEpochMillis k, q.resultMap runtime (q.bucketRows runtime intervals views k)⟩ := by
  unfold bucketResult resultMap rowsMap
  rw [lookup_groupFold_empty, ← zipMap_map, bucketRows]
  refine congrArg (fun values => TimeseriesResult.mk _ (applyPostAggs _ (zipMap _ values))) ?_
  cases (views.filter (Matches intervals)).filter (q.bucketOf runtime · = k) with
  | nil => exact List.map_congr_left fun spec _ => emptyBucketValue_eq spec
  | cons view group =>
    dsimp only
    rw [createAggs, foldl_feedView, List.map_map]
    exact List.map_congr_left fun spec _ => LiveAggregator.get_foldl ..

theorem shown_congr {calendar : Calendar} {granularity : GranularitySpec} {buckets buckets' : List ℤ} (h : ∀ k, k ∈ buckets ↔ k ∈ buckets')
    (k : ℤ) : Shown calendar granularity intervals buckets k ↔ Shown calendar granularity intervals buckets' k := by
  have hnil : buckets = [] ↔ buckets' = [] := by simp only [List.eq_nil_iff_forall_not_mem, h]
  unfold Shown Filled
  simp only [h, hnil]

theorem bucketKeys_spec (hvalid : validateGranularity q.granularity = .ok ()) {buckets : HashMap ℤ (List LiveAggregator)} {shown : List ℤ}
    (hkeys : ∀ k, k ∈ buckets.keys ↔ k ∈ shown) :
    (q.bucketKeys runtime buckets intervals).Pairwise (before q.descending) ∧
      ∀ k, k ∈ q.bucketKeys runtime buckets intervals ↔ if q.skipEmptyBuckets then k ∈ shown else
        Shown runtime.calendar q.granularity intervals shown k := by
  have hsorted : (if q.skipEmptyBuckets then buckets.keys.foldl insertKey [] else
      expandWithEmptyBuckets runtime.calendar buckets.keys q.granularity intervals).Pairwise (· < ·) := by
    split_ifs
    · exact pairwise_foldl_insertKey .nil
    · exact pairwise_expandWithEmptyBuckets
  have hmem : ∀ k, k ∈ (if q.skipEmptyBuckets then buckets.keys.foldl insertKey [] else
      expandWithEmptyBuckets runtime.calendar buckets.keys q.granularity intervals) ↔ if q.skipEmptyBuckets then k ∈ shown else
        Shown runtime.calendar q.granularity intervals shown k := fun k => by
    split_ifs
    · rw [mem_foldl_insertKey, hkeys]
      simp
    · rw [mem_expandWithEmptyBuckets hvalid, shown_congr hkeys]
  unfold bucketKeys
  cases hdescending : q.descending with
  | false =>
    refine ⟨hsorted.imp fun {a b} h => ?_, hmem⟩
    simpa [before] using h
  | true =>
    refine ⟨List.pairwise_reverse.2 (hsorted.imp fun {a b} h => ?_), fun k => ?_⟩
    · simpa [before] using h
    · rw [if_pos rfl, List.mem_reverse, hmem]

/-! ## The typed columns -/

theorem lt_partitionPoint_iff {timestamps : List Int64} (hsorted : timestamps.Pairwise (· ≤ ·)) {i : ℕ} {ts t : Int64}
    (hts : timestamps[i]? = some ts) : i < partitionPoint timestamps t ↔ ts < t := by
  unfold partitionPoint
  induction timestamps generalizing i with
  | nil => simp at hts
  | cons first timestamps ih =>
    obtain ⟨hfirst, hsorted⟩ := List.pairwise_cons.1 hsorted
    by_cases hlt : first < t
    · rw [List.takeWhile_cons_of_pos (by simpa using hlt), List.length_cons]
      cases i with
      | zero =>
        obtain rfl : first = ts := by simpa using hts
        simpa using hlt
      | succ i =>
        rw [Nat.succ_lt_succ_iff]
        exact ih hsorted hts
    · rw [List.takeWhile_cons_of_neg (by simpa using hlt)]
      have hle : first ≤ ts := by
        rcases List.mem_cons.1 (List.mem_of_getElem? hts) with rfl | hmem
        · exact Int64.le_refl _
        · exact hfirst ts hmem
      simp only [List.length_nil, Nat.not_lt_zero, false_iff]
      rw [Int64.lt_iff_toInt_lt] at hlt ⊢
      rw [Int64.le_iff_toInt_le] at hle
      omega

theorem filter_range'_eq {lo hi n : ℕ} {p p' : ℕ → Bool} (h : ∀ i, (lo ≤ i ∧ i < hi ∧ p i = true) ↔ (i < n ∧ p' i = true)) :
    (List.range' lo (hi - lo)).filter p = (List.range n).filter p' := by
  have hleft : ((List.range' lo (hi - lo)).filter p).Pairwise (· < ·) := List.Pairwise.filter _ List.pairwise_lt_range'
  have hright : ((List.range n).filter p').Pairwise (· < ·) := List.Pairwise.filter _ List.pairwise_lt_range
  refine hleft.eq_of_mem_iff hright fun i => ?_
  have hrange : lo ≤ i ∧ i < lo + (hi - lo) ↔ lo ≤ i ∧ i < hi := by omega
  rw [List.mem_filter, List.mem_filter, List.mem_range'_1, List.mem_range, ← h, hrange, and_assoc]

/-- The scanned rows that are accepted are those that match. -/
theorem vectorRows_eq {compiled : Option (ℕ → Bool)} (hcompiled : q.compileVectorizedFilter segment = some compiled)
    (hvectorized : q.vectorized runtime virtualColumns segment = true) :
    (List.range' (scanRange segment intervals).1 ((scanRange segment intervals).2.1 - (scanRange segment intervals).1)).filter
        (scanAccepts segment intervals (scanRange segment intervals).2.2 compiled) =
      (List.range (scanned segment)).filter fun rowIdx => Matches intervals (q.rowView runtime virtualColumns segment rowIdx) := by
  have hview : ∀ rowIdx, Matches intervals (q.rowView runtime virtualColumns segment rowIdx) =
      (inIntervals intervals (timeOf segment rowIdx) && evalCompiled compiled rowIdx) := fun rowIdx => by
    simp [Matches, rowView, compiledAccepts, hvectorized, hcompiled]
  have htime : ∀ rowIdx, rowIdx < scanned segment → segment.timestamps[rowIdx]? = some (timeOf segment rowIdx) := fun rowIdx hlt => by
    have hlength := (lt_min_iff.1 hlt).2
    simp [timeOf, hlength]
  apply filter_range'_eq
  intro i
  rw [hview, scanAccepts]
  have hscanned : min segment.numRows segment.timestamps.length = scanned segment := rfl
  unfold scanRange
  simp only [hscanned]
  cases hpruned : prunedRowRange segment.timestamps intervals segment.timeSorted with
  | none =>
    by_cases hi : i < scanned segment
    · cases intervals with
      | nil => simp [hi, inIntervals]
      | cons interval intervals => simp [hi, htime i hi, inIntervals]
    · simp [hi]
  | some range =>
    obtain ⟨start, stop, rfl, hsorted, rfl⟩ : ∃ start stop, intervals = [(start, stop)] ∧ segment.timeSorted = true ∧
        range = (partitionPoint segment.timestamps start, partitionPoint segment.timestamps stop) := by
      unfold prunedRowRange at hpruned
      split at hpruned
      · rename_i start stop
        split_ifs at hpruned with hsorted
        exact ⟨start, stop, rfl, hsorted, (Option.some.inj hpruned).symm⟩
      · exact absurd hpruned nofun
    by_cases hi : i < scanned segment
    · have hstart := @lt_partitionPoint_iff _ (segment.sorted hsorted) i _ start (htime i hi)
      have hstop := @lt_partitionPoint_iff _ (segment.sorted hsorted) i _ stop (htime i hi)
      have hlo : partitionPoint segment.timestamps start ≤ i ↔ start ≤ timeOf segment i := by rw [← not_lt, hstart, Int64.not_lt]
      simp [inIntervals, hi, hlo, hstop, and_assoc]
    · simp [hi]

theorem accumulate_eq (plans : List AggPlan) (accepts : ℕ → Bool) (rows : List ℕ) (acc : List Int64 × ℕ) :
    accumulate plans accepts rows acc =
      ((rows.filter accepts).foldl (fun acc row => List.zipWith (AggPlan.step row) plans acc) acc.1, acc.2 + (rows.filter accepts).length) := by
  unfold accumulate
  induction rows generalizing acc with
  | nil => rfl
  | cons row rows ih =>
    rw [List.foldl_cons, ih]
    by_cases haccept : accepts row = true
    · rw [if_pos haccept, List.filter_cons_of_pos haccept, List.foldl_cons, List.length_cons]
      refine Prod.ext rfl ?_
      omega
    · rw [if_neg haccept, List.filter_cons_of_neg haccept]

theorem foldl_zipWith_step (plans : List AggPlan) (rows : List ℕ) (init : AggPlan → Int64) :
    rows.foldl (fun acc row => List.zipWith (AggPlan.step row) plans acc) (plans.map init) =
      plans.map fun plan => rows.foldl (fun acc row => plan.step row acc) (init plan) := by
  induction rows generalizing init with
  | nil => rfl
  | cons row rows ih => rw [List.foldl_cons, List.zipWith_map_right, List.zipWith_self, ih]; rfl

/-- A total of sums starts at zero. -/
theorem total_add {values : List Int64} (h : values ≠ []) : total (fun a b => a + b) values = some (values.foldl (fun a b => a + b) 0) := by
  have hsome : ∀ (values : List Int64) (acc : Int64), values.foldl (fun acc v => Option.merge (fun a b => a + b) acc (some v)) (some acc) =
      some (values.foldl (fun a b => a + b) acc) := fun values => by
    induction values with
    | nil => exact fun _ => rfl
    | cons v values ih => exact fun acc => ih (acc + v)
  cases values with
  | nil => exact absurd rfl h
  | cons v values =>
    rw [total, List.foldl_cons, List.foldl_cons, Int64.zero_add]
    exact hsome values v

/-- An accumulator has the result of the aggregator. -/
theorem plan_result {spec : AggregatorSpec} {aggPlan : AggPlan} (hplan : plan segment spec = some aggPlan) {rows : List ℕ} (hrows : rows ≠ [])
    (hlt : ∀ row ∈ rows, row < segment.numRows) :
    Json.ofI64 (rows.foldl (fun acc row => aggPlan.step row acc) 0) = run false spec.kind (rows.map fun row => spec.fed false (segment.row row)) := by
  -- each row has a value that the accumulator adds
  have hvalue : ∃ value : ℕ → Int64, (∀ row ∈ rows, ∀ acc, aggPlan.step row acc = acc + value row) ∧
      (∀ row ∈ rows, extract spec.kind (spec.fed false (segment.row row)) = some (value row)) ∧ combine spec.kind = fun a b => a + b := by
    unfold plan at hplan
    cases hkind : spec.kind with
    | count =>
      rw [hkind] at hplan
      obtain rfl := Option.some.inj hplan
      exact ⟨fun _ => 1, fun _ _ _ => rfl, fun _ _ => rfl, rfl⟩
    | longSum =>
      rw [hkind] at hplan
      obtain ⟨values, hvalues, rfl⟩ := Option.map_eq_some_iff.1 hplan
      refine ⟨fun row => values[row]?.getD 0, fun row hrow acc => ?_, fun row hrow => ?_, rfl⟩
      · obtain ⟨x, hx, -⟩ := segment.longs _ _ hvalues row (hlt row hrow)
        simp [AggPlan.step, hx]
      · obtain ⟨x, hx, hcell⟩ := segment.longs _ _ hvalues row (hlt row hrow)
        simp [AggregatorSpec.fed, AggregatorSpec.fieldName, hkind, hcell, hx, extract, jsonAsI64Lossy]
    | longMin | longMax =>
      rw [hkind] at hplan
      cases hplan
  obtain ⟨value, hstep, hextract, hcombine⟩ := hvalue
  have hfold : rows.foldl (fun acc row => aggPlan.step row acc) 0 = (rows.map value).foldl (fun a b => a + b) 0 := by
    rw [List.foldl_map]
    exact List.foldl_ext _ _ _ fun acc row hrow => hstep row hrow acc
  have htotal : rowsTotal spec.kind (rows.map fun row => spec.fed false (segment.row row)) =
      some ((rows.map value).foldl (fun a b => a + b) 0) := by
    rw [rowsTotal, List.filterMap_map, hcombine, ← total_add (by simpa using hrows)]
    congr 1
    rw [← List.filterMap_eq_map]
    exact List.filterMap_congr fun row hrow => hextract row hrow
  rw [run_eq, htotal, hfold]
  rfl

theorem plans_result {aggregations : List AggregatorSpec} {plans : List AggPlan} (hplans : aggregations.mapM (plan segment) = some plans)
    {rows : List ℕ} (hrows : rows ≠ []) (hlt : ∀ row ∈ rows, row < segment.numRows) :
    (plans.map fun aggPlan => rows.foldl (fun acc row => aggPlan.step row acc) 0).map Json.ofI64 =
      aggregations.map fun spec => run false spec.kind (rows.map fun row => spec.fed false (segment.row row)) := by
  have hforall := mapM_eq_some.1 hplans
  clear hplans
  induction hforall with
  | nil => rfl
  | cons hplan _ ih => rw [List.map_cons, List.map_cons, List.map_cons, ih, plan_result hplan hrows hlt]

/-- The matching rows of a segment. -/
def matchingViews (runtime : Runtime) (q : TimeseriesQuery) (virtualColumns : VirtualColumns) (intervals : List (Int64 × Int64))
    (segment : TypedSegment) : List RowView :=
  (q.rowViews runtime virtualColumns segment).filter (Matches intervals)

/-- The typed columns give one bucket, or none. -/
theorem tryVectorizedAll_eq : q.tryVectorizedAll runtime virtualColumns segment intervals =
    if q.vectorized runtime virtualColumns segment then
      some (if q.matchingViews runtime virtualColumns intervals segment = [] then [] else
        [⟨runtime.formatEpochMillis 0, q.resultMap runtime ((q.matchingViews runtime virtualColumns intervals segment).map (·.row))⟩])
    else none := by
  unfold tryVectorizedAll
  by_cases hvectorized : q.vectorized runtime virtualColumns segment = true
  · have hshape := hvectorized
    simp only [vectorized, decide_eq_true_eq] at hshape
    obtain ⟨hnames, hall, hlegacy, hplans, hfilter⟩ := hshape
    obtain ⟨plans, hplans⟩ := Option.isSome_iff_exists.1 hplans
    obtain ⟨compiled, hcompiled⟩ := Option.isSome_iff_exists.1 hfilter
    set rows := (List.range (scanned segment)).filter fun rowIdx => Matches intervals (q.rowView runtime virtualColumns segment rowIdx) with hrows
    have hviews : q.matchingViews runtime virtualColumns intervals segment = rows.map (q.rowView runtime virtualColumns segment) := by
      rw [matchingViews, rowViews, List.filter_map, hrows]
      rfl
    have hscan : ∀ init, accumulate plans (scanAccepts segment intervals (scanRange segment intervals).2.2 compiled)
        (List.range' (scanRange segment intervals).1 ((scanRange segment intervals).2.1 - (scanRange segment intervals).1)) (plans.map init, 0) =
          (plans.map fun aggPlan => rows.foldl (fun acc row => aggPlan.step row acc) (init aggPlan), rows.length) := fun init => by
      rw [accumulate_eq, vectorRows_eq hcompiled hvectorized, foldl_zipWith_step, Nat.zero_add]
    rw [if_neg (by simp [hnames, hall, hlegacy]), if_pos hvectorized, hplans, hcompiled]
    simp only [hscan, List.length_eq_zero_iff, hviews, List.map_eq_nil_iff]
    by_cases hempty : rows = []
    · rw [if_pos hempty, if_pos hempty]
    · rw [if_neg hempty, if_neg hempty]
      have hlt : ∀ row ∈ rows, row < segment.numRows := fun row hrow =>
        (lt_min_iff.1 (List.mem_range.1 (List.mem_filter.1 hrow).1)).1
      have hrow : ∀ rowIdx, (q.rowView runtime virtualColumns segment rowIdx).row = segment.row rowIdx := fun rowIdx => by
        funext name
        exact virtualColumns.kept _ _ (by simp [hnames])
      rw [plans_result hplans hempty hlt, zipMap_map, resultMap, rowsMap, hlegacy]
      simp only [List.map_map, Function.comp_def, hrow]
  · rw [if_neg hvectorized]
    split_ifs with hshape
    · rfl
    · simp only [not_or, not_not] at hshape
      cases hplans : q.aggregations.mapM (plan segment) with
      | none => rfl
      | some plans =>
        cases hcompiled : q.compileVectorizedFilter segment with
        | none => rfl
        | some compiled =>
          refine absurd ?_ hvectorized
          simp [vectorized, hshape.1, hplans, hcompiled, hshape.2]

/-! ## Both ways -/

theorem bucketOf_all (hall : isAllGranularity q.granularity = true) (view : RowView) : q.bucketOf runtime view = 0 := by
  unfold isAllGranularity at hall
  unfold bucketOf bucketTimestamp
  split at hall
  · obtain rfl := of_decide_eq_true hall
    rfl
  · cases hall

/-- What a segment returns: its shown buckets in order, with the results of their rows. -/
theorem execute_eq {results : List TimeseriesResult} (hvirtual : q.virtualColumns = .ok virtualColumns) (hsettled : Settled virtualColumns)
    (hintervals : parseIntervals runtime.parseIsoMillis q.intervals = .ok intervals) (hok : q.execute runtime segment = .ok results) :
    ∃ keys : List ℤ, keys.Pairwise (before q.descending) ∧
      (∀ k, k ∈ keys ↔ q.ShownOver runtime intervals (q.vectorized runtime virtualColumns segment) (q.rowViews runtime virtualColumns segment) k) ∧
      results = keys.map fun k =>
        ⟨runtime.formatEpochMillis k, q.resultMap runtime (q.bucketRows runtime intervals (q.rowViews runtime virtualColumns segment) k)⟩ := by
  unfold execute at hok
  simp only [bind_eq_ok, hvirtual, hintervals, Except.ok.injEq] at hok
  obtain ⟨-, -, -, -, ⟨⟩, hvalid, _, rfl, -, -, -, -, -, -, _, rfl, hok⟩ := hok
  rw [tryVectorizedAll_eq] at hok
  unfold ShownOver
  by_cases hvectorized : q.vectorized runtime virtualColumns segment = true
  · rw [if_pos hvectorized] at hok
    obtain rfl := Except.ok.inj hok
    have hall : isAllGranularity q.granularity = true := by
      simp only [vectorized, decide_eq_true_eq] at hvectorized
      exact hvectorized.2.1
    simp only [hvectorized, Bool.true_or, if_true]
    rw [← matchingViews]
    by_cases hempty : q.matchingViews runtime virtualColumns intervals segment = []
    · rw [if_pos hempty]
      exact ⟨[], .nil, by simp [hempty], rfl⟩
    · rw [if_neg hempty]
      refine ⟨[0], List.pairwise_singleton _ _, fun k => ?_, ?_⟩
      · rw [List.mem_singleton, List.mem_map]
        constructor
        · rintro rfl
          obtain ⟨view, hview⟩ := List.exists_mem_of_ne_nil _ hempty
          exact ⟨view, hview, bucketOf_all hall view⟩
        · rintro ⟨view, -, rfl⟩
          exact bucketOf_all hall view
      · have hrows : (q.matchingViews runtime virtualColumns intervals segment).filter (q.bucketOf runtime · = 0) =
            q.matchingViews runtime virtualColumns intervals segment :=
          List.filter_eq_self.2 fun view _ => decide_eq_true (bucketOf_all hall view)
        rw [List.map_singleton, bucketRows, ← matchingViews, hrows]
  · rw [if_neg hvectorized] at hok
    split_ifs at hok
    obtain rfl := Except.ok.inj hok
    have hviews : q.rowViews runtime virtualColumns segment = (List.range (scanned segment)).map (q.loopView virtualColumns segment) := by
      refine List.map_congr_left fun rowIdx _ => ?_
      simp [rowView, loopView, hvectorized]
    have hloop := @rowLoop_eq runtime q virtualColumns segment intervals hsettled (List.range (scanned segment)) .empty ∅ fun _ _ _ _ => rfl
    rw [← hviews] at hloop
    rw [zipIdx_take, hloop]
    obtain ⟨hsorted, hmem⟩ := bucketKeys_spec hvalid (mem_keys_groupFold (q.bucketOf runtime) (fun _ =>
      q.createAggs) (q.feedView runtime) ((q.rowViews runtime virtualColumns segment).filter (Matches intervals)))
    refine ⟨_, hsorted, fun k => ?_, List.map_congr_left fun k _ => bucketResult_eq _ k⟩
    simp only [hmem, hvectorized, Bool.false_or]

end TimeseriesQuery

end FerroDruid.Query
