import FerroDruid.Lib.Sorting
import FerroDruid.Lib.TreeMap
import FerroDruid.Query.GroupKey
import FerroDruid.Query.Timeseries
/-!
# TopN queries

The row path of `TopNQuery::execute_with_limit` of `ferrodruid-query/src/topn.rs`,
behind the checks of the query: a map of dimension values for every time bucket,
ranked, cut at the cursor and truncated.

The aggregators of a value are any state with a feed. A hash map is read in any
order, and a sort promises what `sort_by` does, so a page is a relation.
-/

namespace FerroDruid.Query

open Lib List

/-! ## Events -/

/-- A `serde_json::Map`, in the order its keys came in. -/
abbrev Event : Type := List (String × Json)

namespace Event

def get (m : Event) (name : String) : Option Json := (m.find? fun field => field.1 = name).map (·.2)

/-- A key that is there keeps its place. -/
def insert (m : Event) (name : String) (value : Json) : Event :=
  if name ∈ m.map (·.1) then m.map fun field => if field.1 = name then (name, value) else field else m ++ [(name, value)]

def insertAll (m : Event) (fields : List (String × Json)) : Event := fields.foldl (fun m field => m.insert field.1 field.2) m

theorem get_cons (field : String × Json) (m : Event) (name : String) :
    get (field :: m) name = if field.1 = name then some field.2 else m.get name := by
  unfold get
  by_cases h : field.1 = name <;> simp [h]

variable (m : Event)

theorem get_append (m' : Event) (name : String) : get (m ++ m') name = (m.get name).or (m'.get name) := by
  induction m with
  | nil => rfl
  | cons field m ih =>
    rw [cons_append, get_cons, get_cons, ih]
    split_ifs <;> rfl

variable {name : String}

theorem get_eq_none {m : Event} (h : name ∉ m.map (·.1)) : m.get name = none := by
  induction m with
  | nil => rfl
  | cons field m ih =>
    rw [map_cons, mem_cons, not_or] at h
    rw [get_cons, if_neg (Ne.symm h.1), ih h.2]

theorem get_replaced_self {m : Event} (h : name ∈ m.map (·.1)) (value : Json) :
    get (m.map fun field => if field.1 = name then (name, value) else field) name = some value := by
  induction m with
  | nil => cases h
  | cons field m ih =>
    rw [map_cons, get_cons]
    by_cases hfield : field.1 = name
    · simp [hfield]
    · rw [map_cons, mem_cons] at h
      simp [hfield, ih (h.resolve_left (Ne.symm hfield))]

theorem get_replaced_of_ne {key : String} (h : key ≠ name) (value : Json) :
    get (m.map fun field => if field.1 = name then (name, value) else field) key = m.get key := by
  induction m with
  | nil => rfl
  | cons field m ih =>
    rw [map_cons, get_cons, get_cons, ih]
    by_cases hfield : field.1 = name
    · simp [hfield, Ne.symm h]
    · simp [hfield]

/-- The lookups of an event are updated. -/
theorem get_insert (name : String) (value : Json) : (m.insert name value).get = JsonMap.insert m.get name value := by
  funext key
  unfold insert JsonMap.insert
  by_cases hmem : name ∈ m.map (·.1)
  · rw [if_pos hmem]
    split_ifs with hkey
    · rw [hkey, get_replaced_self hmem]
    · exact get_replaced_of_ne m hkey value
  · rw [if_neg hmem, get_append, get_cons]
    by_cases hkey : key = name
    · rw [hkey, get_eq_none hmem, if_pos rfl, if_pos rfl]
      rfl
    · rw [if_neg hkey, if_neg (Ne.symm hkey)]
      exact Option.or_none

theorem get_insertAll (fields : List (String × Json)) :
    (m.insertAll fields).get = fields.foldl (fun m field => JsonMap.insert m field.1 field.2) m.get := by
  induction fields generalizing m with
  | nil => rfl
  | cons field fields ih => rw [insertAll, foldl_cons, ← insertAll, ih, get_insert, foldl_cons]

theorem mem_insert {m : Event} {value : Json} {field : String × Json} (h : field ∈ m.insert name value) :
    field ∈ m ∨ field = (name, value) := by
  unfold insert at h
  split_ifs at h
  · obtain ⟨field', hfield', rfl⟩ := mem_map.1 h
    split_ifs
    · exact .inr rfl
    · exact .inl hfield'
  · simpa using h

end Event

/-! ## Ranking -/

inductive TopNMetricSpec where
  | numeric (metric : String)
  | dimension (ordering : Option String) (previousStop : Option Bytes)
  | inverted (metric : TopNMetricSpec)

/-- A sort key, the fields of an entry, and what else the path carries. -/
structure TopNEntry (τ : Type) where
  sortKey : Bytes
  event : Event
  payload : τ

theorem sketch_ascii : ∀ b ∈ ascii "@sketch", b < 0x80 := by decide

theorem estimate_ascii : ∀ b ∈ ascii "estimate", b < 0x80 := by decide

/-- `numeric_agg_cell`: a number, or the estimate of a sketch. -/
def numericAggCell : Json → Option F64
  | .number n => (Json.number n).asF64
  | .object fields =>
    match Json.get fields (.ofAscii (ascii "@sketch") sketch_ascii) with
    | some _ => (Json.get fields (.ofAscii (ascii "estimate") estimate_ascii)).bind Json.asF64
    | none => none
  | _ => none

def metricRankValue (value : Json) : F64 := (numericAggCell value).getD (.zero false)

/-- `partial_cmp`, with what is not comparable as equal. -/
def partialCmp (x y : F64) : Ordering :=
  match x.rank, y.rank with
  | some a, some b => compare a b
  | _, _ => .eq

def compareText (a b : Bytes) : Ordering := a.compareLex compareBytes b

section

variable {τ : Type}

/-- Descending, and ties by their sort keys. -/
def compareMetric (name : String) (a b : TopNEntry τ) : Ordering :=
  let va := ((a.event.get name).map metricRankValue).getD (.zero false)
  let vb := ((b.event.get name).map metricRankValue).getD (.zero false)
  (partialCmp vb va).then (compareText a.sortKey b.sortKey)

def isNumeric (ordering : Option String) : Bool := ordering = some "numeric"

/-- A key that is no number is 0. -/
def compareSortKeys (numeric : Bool) (a b : Bytes) : Ordering :=
  if numeric then partialCmp ((parseF64 a).getD (.zero false)) ((parseF64 b).getD (.zero false)) else compareText a b

def compareDimension (numeric : Bool) (a b : TopNEntry τ) : Ordering := compareSortKeys numeric a.sortKey b.sortKey

/-- `sort_topn_entries` -/
def SortsTo : TopNMetricSpec → List (TopNEntry τ) → List (TopNEntry τ) → Prop
  | .numeric name, entries, sorted => SortedBy (compareMetric name) entries sorted
  | .dimension ordering _, entries, sorted => SortedBy (compareDimension (isNumeric ordering)) entries sorted
  | .inverted metric, entries, sorted => ∃ inner, SortsTo metric entries inner ∧ sorted = inner.reverse

/-- Whether an entry is past the cursor; what is not a number is. -/
def pastStop (numeric : Bool) (stop key : Bytes) : Bool :=
  if numeric then
    match parseF64 stop, parseF64 key with
    | some s, some k => F64.lt s k
    | _, _ => true
  else compareText stop key = .lt

def applyPreviousStop : TopNMetricSpec → List (TopNEntry τ) → List (TopNEntry τ)
  | .dimension ordering (some stop), entries => entries.filter fun e => pastStop (isNumeric ordering) stop e.sortKey
  | _, entries => entries

def pastCursor : TopNMetricSpec → Bytes → Bool
  | .dimension ordering (some stop), key => pastStop (isNumeric ordering) stop key
  | _, _ => true

theorem applyPreviousStop_eq (metric : TopNMetricSpec) (entries : List (TopNEntry τ)) :
    applyPreviousStop metric entries = entries.filter fun e => pastCursor metric e.sortKey := by
  match metric with
  | .dimension ordering (some stop) => rfl
  | .dimension ordering none | .numeric name | .inverted inner => exact (filter_eq_self.2 fun _ _ => rfl).symm

theorem SortsTo.perm {metric : TopNMetricSpec} {entries sorted : List (TopNEntry τ)} (h : SortsTo metric entries sorted) : sorted.Perm entries := by
  induction metric generalizing sorted with
  | numeric | dimension => exact SortedBy.perm h
  | inverted metric ih =>
    obtain ⟨inner, hinner, rfl⟩ := h
    exact (reverse_perm inner).trans (ih hinner)

/-- The page of sorted entries. -/
def pageOf (metric : TopNMetricSpec) (threshold : ℕ) (sorted : List (TopNEntry τ)) : List (TopNEntry τ) :=
  (applyPreviousStop metric sorted).take threshold

end

/-! ## The row path -/

structure TopNRuntime where
  time : Runtime
  dim : DimRuntime
  displayF64 : F64 → Bytes

/-- The aggregators of a dimension value. -/
structure Aggregators (σ : Type) where
  create : σ
  feed : σ → PassingRow → σ
  /-- Name and final value of each. -/
  finalize : σ → Except DruidError (List (String × Json))
  /-- `substitute_cardinality_partials` -/
  substitute : σ → Event → Event

/-- Aggregations over longs. -/
def integerAggregators (legacy : Bool) (aggregations : List AggregatorSpec) : Aggregators (List LiveAggregator) where
  create := aggregations.map fun spec => .create spec.kind
  feed aggs p := feedRow legacy aggregations aggs p.row
  finalize aggs := .ok ((aggregations.zip aggs).map fun e => (e.1.name, e.2.get legacy))
  substitute _ m := m

structure TopNQuery (σ : Type) where
  intervals : List (Int64 × Int64)
  granularity : GranularitySpec
  dimension : DimensionSpec
  threshold : ℕ
  metric : TopNMetricSpec
  filter : Option TypedFilter
  virtualColumns : VirtualColumns
  aggregators : Aggregators σ
  postAggregations : List PostAggregator

structure TopNResult where
  timestamp : String
  result : List Event

namespace TopNQuery

variable {σ : Type} (runtime : TopNRuntime) (q : TopNQuery σ) (segment : TypedSegment)

def typedVerdict (rowIdx : ℕ) : Option Bool :=
  match q.filter with
  | some filter => if q.virtualColumns.names = [] then filter.matchesTyped segment rowIdx else none
  | none => none

def matchesRow (rowIdx : ℕ) (row : JsonMap) : Bool :=
  match q.filter with
  | some filter => q.typedVerdict segment rowIdx = some true || filter.matchesRow row
  | none => true

/-- Buckets of dimension values, and the number of values in all of them. -/
structure Buckets (σ : Type) where
  dimAggs : HashMap ℤ (HashMap GroupKey σ) := ∅
  inflight : ℕ := 0

def overInflight (maxInflight observed : ℕ) : DruidError := .resourceLimit "topN.maxIntermediateRows" maxInflight observed

def feedKey (maxInflight : ℕ) (p : PassingRow) (b : Buckets σ) (key : GroupKey) : Except DruidError (Buckets σ) :=
  let dimAggs := b.dimAggs.getD p.bucketKey ∅
  match dimAggs.lookup key with
  | some aggs => .ok { b with dimAggs := AList.insert p.bucketKey (AList.insert key (q.aggregators.feed aggs p) dimAggs) b.dimAggs }
  | none =>
    if 0 < maxInflight ∧ maxInflight ≤ b.inflight then .error (overInflight maxInflight (b.inflight + 1))
    else .ok {
      dimAggs := AList.insert p.bucketKey (AList.insert key (q.aggregators.feed q.aggregators.create p) dimAggs) b.dimAggs
      inflight := b.inflight + 1 }

def rowLoop (maxInflight : ℕ) : List (Int64 × ℕ) → JsonMap → Buckets σ → Except DruidError (Buckets σ)
  | [], _, b => .ok b
  | (ts, rowIdx) :: rows, row, b =>
    if inIntervals q.intervals ts = false ∨ q.typedVerdict segment rowIdx = some false then rowLoop maxInflight rows row b
    else
      let row := q.virtualColumns.augmentRow (TimeseriesQuery.updateRow (segment.row rowIdx) row)
      if q.matchesRow segment rowIdx row then do
        let keys := explodeDimValue runtime.dim q.dimension ((row q.dimension.inputName).getD .null)
        let b ← keys.foldlM (q.feedKey maxInflight ⟨bucketTimestamp runtime.time.calendar ts q.granularity, rowIdx, row⟩) b
        rowLoop maxInflight rows row b
      else rowLoop maxInflight rows row b

def buckets (maxInflight : ℕ) : Except DruidError (Buckets σ) :=
  q.rowLoop runtime segment maxInflight (segment.timestamps.zipIdx.take segment.numRows) .empty {}

/-! ## Results -/

/-- The values of post-aggregations are of the map as it was before. -/
def withPostAggs (m : Event) : Event := m.insertAll (q.postAggregations.map fun pa => (pa.name, pa.evaluate m.get))

def entryOf (value : GroupKey × σ) : Except DruidError (TopNEntry (GroupKey × σ)) := do
  let outputs ← q.aggregators.finalize value.2
  let m := Event.insertAll [(q.dimension.outputName, value.1.toJson)] outputs
  .ok ⟨value.1.asSortKey runtime.displayF64, q.withPostAggs m, value⟩

/-- The entries of a bucket, in the order its map is read. -/
def entriesOf (dimAggs : HashMap GroupKey σ) : Except DruidError (List (TopNEntry (GroupKey × σ))) :=
  dimAggs.entries.mapM fun e => q.entryOf runtime (e.1, e.2)

/-- Start of the first interval, under granularity `all`. -/
def allGranularityAnchor : Option Int64 :=
  if isAllGranularity q.granularity then (q.intervals.map (·.1)).min? else none

def bucketTime (key : ℤ) : String := runtime.time.formatEpochMillis ((q.allGranularityAnchor.map Int64.toInt).getD key)

def emitted (e : TopNEntry (GroupKey × σ)) : Event := q.aggregators.substitute e.payload.2 e.event

/-- A bucket's result, for some order of its map. -/
def BucketResult (key : ℤ) (dimAggs : HashMap GroupKey σ) (result : TopNResult) : Prop :=
  ∃ entries sorted, q.entriesOf runtime dimAggs = .ok entries ∧ SortsTo q.metric entries sorted ∧
    result = ⟨q.bucketTime runtime key, (pageOf q.metric q.threshold sorted).map q.emitted⟩

def bucketKeys (b : Buckets σ) : List ℤ := b.dimAggs.keys.foldl insertKey []

/-- What the row path returns: the first bucket that has no result is its error. -/
def RowPath (maxInflight : ℕ) : Except DruidError (List TopNResult) → Prop
  | .ok results => ∃ b, q.buckets runtime segment maxInflight = .ok b ∧
      List.Forall₂ (fun key result => q.BucketResult runtime key (b.dimAggs.getD key ∅) result) (bucketKeys b) results
  | .error e => q.buckets runtime segment maxInflight = .error e ∨
      ∃ b, q.buckets runtime segment maxInflight = .ok b ∧ ∃ key ∈ bucketKeys b, q.entriesOf runtime (b.dimAggs.getD key ∅) = .error e ∧
        ∀ key' ∈ bucketKeys b, key' < key → ∃ entries, q.entriesOf runtime (b.dimAggs.getD key' ∅) = .ok entries

end TopNQuery

end FerroDruid.Query
