import FerroDruid.Query.Aggregations
import FerroDruid.Query.EmptyBuckets
/-!
# Timeseries queries

`TimeseriesQuery::execute` of `ferrodruid-query/src/timeseries.rs`: rows are grouped
into time buckets by a loop over row maps, or, for one bucket over typed columns,
by accumulators.
-/

namespace FerroDruid.Query

open Lib Aggregator

/-- The null mode of the process, and what `chrono` parses and prints. -/
structure Runtime where
  legacy : Bool
  calendar : Calendar
  parseIsoMillis : String → Option Int64
  formatEpochMillis : ℤ → String

/-- A segment with what the executors read of its typed columns. All rows have the
same columns, and a long column has a value in every row. -/
structure TypedSegment extends SegmentData where
  multiValue : String → Bool
  longColumn : String → Option (List Int64)
  timeSorted : Bool
  uniform : ∀ rowIdx rowIdx' name, row rowIdx name = none → row rowIdx' name = none
  longs : ∀ name values, longColumn name = some values → ∀ rowIdx < numRows, ∃ x, values[rowIdx]? = some x ∧ row rowIdx name = some (.ofI64 x)
  sorted : timeSorted = true → timestamps.Pairwise (· ≤ ·)

def TypedSegment.ofTimes (timestamps : List Int64) : TypedSegment where
  toSegmentData := .ofTimes timestamps
  multiValue _ := false
  longColumn _ := none
  timeSorted := false
  uniform _ _ name h := by
    by_cases hname : name = "__time"
    · simp [SegmentData.ofTimes, hname] at h
    · simp [SegmentData.ofTimes, hname]
  longs _ _ h := absurd h nofun
  sorted h := absurd h nofun

/-- A filter with its typed evaluation, where it has one: of a row, and compiled
for all rows. -/
structure TypedFilter extends FilterSpec where
  matchesTyped : TypedSegment → ℕ → Option Bool
  compileTyped : TypedSegment → Option (ℕ → Bool)

structure TimeseriesQuery where
  intervals : List String
  granularity : GranularitySpec
  filter : Option TypedFilter
  virtualColumns : Except DruidError VirtualColumns
  aggregations : List AggregatorSpec
  postAggregations : List PostAggregator
  descending : Bool
  skipEmptyBuckets : Bool

structure TimeseriesResult where
  timestamp : String
  result : JsonMap

/-- `serde_json::Map` filled with the values of the aggregations, one after the other. -/
def zipMap (aggregations : List AggregatorSpec) (values : List Json) : JsonMap :=
  (aggregations.zip values).foldl (fun m e => m.insert e.1.name e.2) .empty

namespace TimeseriesQuery

variable (runtime : Runtime) (q : TimeseriesQuery)

/-! ## Checks -/

def validatePostAggs : List PostAggregator → Except DruidError Unit
  | [] => .ok ()
  | pa :: rest => do
    pa.validateSupported
    validatePostAggs rest

def validateFilter : Except DruidError Unit :=
  match q.filter with
  | some filter => filter.validate
  | none => .ok ()

variable (virtualColumns : VirtualColumns) (segment : TypedSegment)

def ensureAggregationsNotMultiValue : List AggregatorSpec → Except DruidError Unit
  | [] => .ok ()
  | spec :: rest => do
    spec.ensureNotMultiValue segment.multiValue virtualColumns
    ensureAggregationsNotMultiValue rest

def ensureFilterSupported : Except DruidError Unit :=
  match q.filter with
  | some filter => filter.ensureMultiValueSupported segment.toSegmentData virtualColumns
  | none => .ok ()

/-! ## The loop over row maps -/

/-- `build_row_update_only` over the row map of the row before. -/
def updateRow (base stale : JsonMap) : JsonMap := fun key =>
  match base key with
  | some value => some value
  | none => stale key

/-- What the typed evaluation of the filter says of a row; virtual columns need the row map. -/
def typedVerdict (rowIdx : ℕ) : Option Bool :=
  match q.filter with
  | some filter => if virtualColumns.names = [] then filter.matchesTyped segment rowIdx else none
  | none => none

def matchesRow (rowIdx : ℕ) (row : JsonMap) : Bool :=
  match q.filter with
  | some filter => q.typedVerdict virtualColumns segment rowIdx = some true || filter.matchesRow row
  | none => true

def createAggs : List LiveAggregator := q.aggregations.map fun spec => .create spec.kind

def feedAggs (aggs : List LiveAggregator) (row : JsonMap) : List LiveAggregator :=
  List.zipWith (fun spec agg => agg.aggregate (spec.fed runtime.legacy row)) q.aggregations aggs

def rowLoop (intervals : List (Int64 × Int64)) :
    List (Int64 × ℕ) → JsonMap → HashMap ℤ (List LiveAggregator) → HashMap ℤ (List LiveAggregator)
  | [], _, buckets => buckets
  | (ts, rowIdx) :: rows, row, buckets =>
    if inIntervals intervals ts = false ∨ q.typedVerdict virtualColumns segment rowIdx = some false then rowLoop intervals rows row buckets
    else
      let row := virtualColumns.augmentRow (updateRow (segment.row rowIdx) row)
      if q.matchesRow virtualColumns segment rowIdx row then
        let bucketKey := bucketTimestamp runtime.calendar ts q.granularity
        let aggs := buckets.getD bucketKey q.createAggs
        rowLoop intervals rows row (AList.insert bucketKey (q.feedAggs runtime aggs row) buckets)
      else rowLoop intervals rows row buckets

/-- The value of an aggregation in a bucket without rows. -/
def emptyBucketValue (spec : AggregatorSpec) : Json :=
  if runtime.legacy then (LiveAggregator.create spec.kind).get runtime.legacy
  else if spec.kind = .count then .ofI64 0 else .null

/-- Keys in the order of the response. -/
def bucketKeys (buckets : HashMap ℤ (List LiveAggregator)) (intervals : List (Int64 × Int64)) : List ℤ :=
  let keys := if q.skipEmptyBuckets then buckets.keys.foldl insertKey [] else
    expandWithEmptyBuckets runtime.calendar buckets.keys q.granularity intervals
  if q.descending then keys.reverse else keys

def bucketResult (buckets : HashMap ℤ (List LiveAggregator)) (key : ℤ) : TimeseriesResult :=
  let values := match buckets.lookup key with
    | some aggs => aggs.map (·.get runtime.legacy)
    | none => q.aggregations.map (emptyBucketValue runtime)
  ⟨runtime.formatEpochMillis key, applyPostAggs q.postAggregations (zipMap q.aggregations values)⟩

/-! ## One bucket over typed columns -/

inductive AggPlan where
  | count
  | longSum (values : List Int64)

def plan (spec : AggregatorSpec) : Option AggPlan :=
  match spec.kind with
  | .count => some .count
  | .longSum => (segment.longColumn spec.field).map .longSum
  | _ => none

/-- An accumulator is a wrapping sum; a count stays below 2 to the 63. -/
def AggPlan.step (row : ℕ) : AggPlan → Int64 → Int64
  | .count, acc => acc + 1
  | .longSum values, acc =>
    match values[row]? with
    | some x => acc + x
    | none => acc

/-- `partition_point`: how many times of a sorted column are before `t`. -/
def partitionPoint (timestamps : List Int64) (t : Int64) : ℕ := (timestamps.takeWhile (· < t)).length

def prunedRowRange (timestamps : List Int64) (intervals : List (Int64 × Int64)) (timeSorted : Bool) : Option (ℕ × ℕ) :=
  match intervals with
  | [(start, stop)] => if timeSorted then some (partitionPoint timestamps start, partitionPoint timestamps stop) else none
  | _ => none

/-- The rows to scan, and whether their times are still to be checked. -/
def scanRange (intervals : List (Int64 × Int64)) : ℕ × ℕ × Bool :=
  let numRows := min segment.numRows segment.timestamps.length
  match prunedRowRange segment.timestamps intervals segment.timeSorted with
  | some (lo, hi) => (lo, min hi numRows, false)
  | none => (0, numRows, !intervals.isEmpty)

def compileVectorizedFilter : Option (Option (ℕ → Bool)) :=
  match q.filter with
  | none => some none
  | some filter => (filter.compileTyped segment).map some

/-- No filter accepts every row. -/
def evalCompiled (compiled : Option (ℕ → Bool)) (row : ℕ) : Bool :=
  match compiled with
  | some eval => eval row
  | none => true

def scanAccepts (intervals : List (Int64 × Int64)) (checkInterval : Bool) (compiled : Option (ℕ → Bool)) (row : ℕ) : Bool :=
  let inside := !checkInterval || (segment.timestamps[row]?.any fun ts => intervals.any fun interval => interval.1 ≤ ts && ts < interval.2)
  inside && evalCompiled compiled row

def accumulate (plans : List AggPlan) (accepts : ℕ → Bool) (rows : List ℕ) (acc : List Int64 × ℕ) : List Int64 × ℕ :=
  rows.foldl (fun acc row => if accepts row then (List.zipWith (AggPlan.step row) plans acc.1, acc.2 + 1) else acc) acc

def tryVectorizedAll (intervals : List (Int64 × Int64)) : Option (List TimeseriesResult) :=
  if virtualColumns.names ≠ [] ∨ isAllGranularity q.granularity = false ∨ runtime.legacy = true then none
  else
    match q.aggregations.mapM (plan segment), q.compileVectorizedFilter segment with
    | some plans, some compiled =>
      let (lo, hi, checkInterval) := scanRange segment intervals
      let (acc, matched) := accumulate plans (scanAccepts segment intervals checkInterval compiled) (List.range' lo (hi - lo))
        (plans.map fun _ => 0, 0)
      if matched = 0 then some []
      else some [⟨runtime.formatEpochMillis 0, applyPostAggs q.postAggregations (zipMap q.aggregations (acc.map Json.ofI64))⟩]
    | _, _ => none

/-! ## A query -/

def execute : Except DruidError (List TimeseriesResult) := do
  validatePostAggs q.postAggregations
  q.validateFilter
  validateGranularity q.granularity
  let virtualColumns ← q.virtualColumns
  virtualColumns.ensureNoMultiValueRefs segment.toSegmentData
  ensureAggregationsNotMultiValue virtualColumns segment q.aggregations
  q.ensureFilterSupported virtualColumns segment
  let intervals ← parseIntervals runtime.parseIsoMillis q.intervals
  match q.tryVectorizedAll runtime virtualColumns segment intervals with
  | some fast => .ok fast
  | none =>
    let buckets := q.rowLoop runtime virtualColumns segment intervals (segment.timestamps.zipIdx.take segment.numRows) .empty ∅
    if q.skipEmptyBuckets = false ∧ fillOverflows buckets.keys q.granularity then .error .overflow
    else .ok ((q.bucketKeys runtime buckets intervals).map (q.bucketResult runtime buckets))

end TimeseriesQuery

end FerroDruid.Query
