import FerroDruid.Ingest.Rows
/-!
# Rollup

`ingest_with_rollup` and `ingest_parsed` of `ferrodruid-ingest-batch/src/lib.rs`:
rows with one truncated time and equal dimensions become one row, with the number of
them and the sums of their metrics. String columns are held before their encoding.
-/

namespace FerroDruid.Ingest

open Lib

/-! ## Segments -/

inductive ColumnData where
  | long (values : List Int64)
  | longNullable (values : List (Option Int64))
  | double (values : List F64)
  | string (values : List (Option Utf8))
  | stringMulti (rows : List (List Utf8))
  deriving DecidableEq

structure SegmentData where
  numRows : ℕ
  startMillis : Int64
  endMillis : Int64
  dimensions : List Utf8
  metrics : List Utf8
  columns : HashMap Utf8 ColumnData

/-- A batch ingester, what it takes from elsewhere, and the null mode. -/
structure BatchIngester where
  dimSchemas : List DimensionSchema
  metricsSpecs : List MetricSpec
  /-- Under the timestamp column and format that are declared. -/
  extractTimestamp : Row → Except IngestError Int64
  chrono : Chrono
  /-- The text of a JSON value. -/
  jsonText : Json → Utf8
  legacy : Bool

def timeName : Utf8 := ⟨ascii "__time", Eq.refl true⟩

namespace BatchIngester

variable (b : BatchIngester)

def metricNames : List Utf8 := b.metricsSpecs.filterMap (·.name)

def dimensionNames : List Utf8 := b.dimSchemas.map (·.name)

/-! ## Columns -/

/-- An element of a row with several values. -/
def elementText (dimName : Utf8) : Json → Except IngestError Utf8
  | .string s => .ok s
  | .number n => .ok (b.jsonText (.number n))
  | .bool v => .ok (b.jsonText (.bool v))
  | _ => .error (.arrayElement dimName)

/-- The text of a scalar; a null has none. -/
def scalarText : Option Json → Option Utf8
  | none | some .null => none
  | some (.string s) => some s
  | some v => some (b.jsonText v)

def emptyText : Utf8 := ⟨[], Eq.refl true⟩

def isArray : Option Json → Bool
  | some (.array _) => true
  | _ => false

def buildStringColumn (dimName : Utf8) (rows : List (Int64 × Row)) : Except IngestError ColumnData :=
  if !rows.any fun row => isArray (row.2.lookup dimName) then
    .ok (.string (rows.map fun row =>
      match b.scalarText (row.2.lookup dimName) with
      | some s => some s
      | none => if b.legacy then some emptyText else none))
  else do
    let mvRows ← rows.mapM fun row =>
      match row.2.lookup dimName with
      | some (.array elems) => elems.mapM (b.elementText dimName)
      | v => .ok (b.scalarText v).toList
    .ok (.stringMulti mvRows)

def buildLongColumn (name : Utf8) (rows : List (Int64 × Row)) : ColumnData :=
  let values := rows.map fun row => (row.2.lookup name).bind jsonToI64
  if b.legacy then .long (values.map (·.getD 0))
  else if values.all (·.isSome) then .long (values.filterMap id)
  else .longNullable values

def buildMetricColumn (metricName : Utf8) (rows : List (Int64 × Row)) : ColumnData :=
  .double (rows.map fun row => ((row.2.lookup metricName).bind jsonToF64).getD (if b.legacy then .zero false else .nan))

def buildDimension (schema : DimensionSchema) (rows : List (Int64 × Row)) : Except IngestError ColumnData :=
  match schema.dimType with
  | .string => b.buildStringColumn schema.name rows
  | .long => .ok (b.buildLongColumn schema.name rows)

/-- Rolled rows have a metric under its name, raw rows under its field. -/
def buildMetric (rolled : Bool) (spec : MetricSpec) (name : Utf8) (rows : List (Int64 × Row)) : ColumnData :=
  if spec.typ = .integer .count then
    .long (rows.map fun row => if rolled then ((row.2.lookup name).bind jsonToI64).getD 1 else 1)
  else b.buildMetricColumn (if rolled then name else spec.fieldName.getD name) rows

def insertDimensions (rows : List (Int64 × Row)) : List DimensionSchema → HashMap Utf8 ColumnData → Except IngestError (HashMap Utf8 ColumnData)
  | [], columns => .ok columns
  | schema :: schemas, columns => do
    let col ← b.buildDimension schema rows
    insertDimensions rows schemas (columns.insert schema.name col)

def insertMetrics (rolled : Bool) (rows : List (Int64 × Row)) (columns : HashMap Utf8 ColumnData) : HashMap Utf8 ColumnData :=
  b.metricsSpecs.foldl (fun columns spec =>
    match spec.name with
    | some name => columns.insert name (b.buildMetric rolled spec name rows)
    | none => columns) columns

/-- The rows sorted by time, and a column for the time, for each dimension and for
each metric that has a name. -/
def ingestParsed (parsedRows : List (Int64 × Row)) (rolled : Bool) : Except IngestError SegmentData :=
  match parsedRows.insertionSort fun x y => x.1.toInt ≤ y.1.toInt with
  | [] => .error .noRows
  | first :: rest => do
    let parsed := first :: rest
    let times := parsed.map (·.1)
    let columns ← b.insertDimensions parsed b.dimSchemas ((∅ : HashMap Utf8 ColumnData).insert timeName (.long times))
    .ok {
      numRows := parsed.length
      startMillis := first.1
      endMillis := (first :: rest).getLast (List.cons_ne_nil _ _) |>.1
      dimensions := b.dimensionNames
      metrics := b.metricNames
      columns := b.insertMetrics rolled parsed columns
    }

/-! ## Groups -/

structure RollupKey where
  ts : Int64
  dims : List (Option Utf8)
  deriving DecidableEq

/-- No text comes before any text. -/
def optionBefore : Option Utf8 → Option Utf8 → Bool
  | none, _ => true
  | some _, none => false
  | some s, some t => textBefore s.bytes t.bytes

def dimsBefore : List (Option Utf8) → List (Option Utf8) → Bool
  | [], _ => true
  | _ :: _, [] => false
  | x :: xs, y :: ys => if x = y then dimsBefore xs ys else optionBefore x y

namespace RollupKey

/-- By time, then by dimensions. -/
def before (x y : RollupKey) : Bool := x.ts.toInt < y.ts.toInt || (x.ts = y.ts && dimsBefore x.dims y.dims)

end RollupKey

structure RollupAccum where
  count : ℕ
  sums : HashMap Utf8 F64

/-- A dimension as text: a long by its number. In the legacy mode a null is what it
reads as. -/
def dimKey (schema : DimensionSchema) (row : Row) : Except IngestError (Option Utf8) :=
  match row.lookup schema.name with
  | some (.array _) => .error (.multiValueRollup schema.name)
  | value =>
    let key :=
      match schema.dimType with
      | .string => b.scalarText value
      | .long => (value.bind jsonToI64).map longText
    match key with
    | some s => .ok (some s)
    | none =>
      if b.legacy then
        match schema.dimType with
        | .string => .ok (some emptyText)
        | .long => .ok (some (longText 0))
      else .ok none

def rollupKey (granularity : String) (parsed : Int64 × Row) : Except IngestError RollupKey := do
  let dims ← b.dimSchemas.mapM fun schema => b.dimKey schema parsed.2
  .ok ⟨truncateTimestamp b.chrono parsed.1 granularity, dims⟩

/-- The counts are under their names. -/
def countNames : List Utf8 := b.metricsSpecs.filterMap fun spec => if spec.typ = .integer .count then spec.name else none

/-- Whatever is not a count is a sum, of a field under a name. -/
def sumMetrics : List (Utf8 × Utf8) :=
  b.metricsSpecs.filterMap fun spec => if spec.typ = .integer .count then none else spec.name.map fun name => (name, spec.fieldName.getD name)

/-- Nulls are left out of a sum. -/
def addTo (row : Row) (sums : HashMap Utf8 F64) (metric : Utf8 × Utf8) : HashMap Utf8 F64 :=
  match (row.lookup metric.2).bind jsonToF64 with
  | some val => sums.insert metric.1 ((sums.getD metric.1 (.zero false)).add val)
  | none => sums

def feed (acc : RollupAccum) (row : Row) : RollupAccum := ⟨acc.count + 1, b.sumMetrics.foldl (addTo row) acc.sums⟩

def dimJson (dim : Option Utf8) : Json := dim.elim .null .string

/-- A group as a row: dimensions as texts, counts, then the sums that are finite. -/
def rolledRow (key : RollupKey) (acc : RollupAccum) : Row :=
  let obj := (b.dimSchemas.zip key.dims).foldl (fun (obj : Row) dim => obj.insert dim.1.name (dimJson dim.2)) ∅
  let obj := b.countNames.foldl (fun (obj : Row) name => obj.insert name (.ofU64 (.ofNat acc.count))) obj
  acc.sums.entries.foldl (fun obj sum => if sum.2.isFinite then obj.insert sum.1 (.ofF64 sum.2) else obj) obj

def ingestWithRollup (rows : List Row) (granularity : String) : Except IngestError SegmentData :=
  if rows = [] then .error .noRows
  else do
    let parsed ← rows.mapM fun row => do
      let ts ← b.extractTimestamp row
      .ok (ts, row)
    let keyed ← parsed.mapM fun parsed => do
      let key ← b.rollupKey granularity parsed
      .ok (key, parsed.2)
    let groups : HashMap RollupKey RollupAccum := groupFold (·.1) (fun _ => ⟨0, ∅⟩) (fun acc (_, row) => b.feed acc row) keyed ∅
    let keys := groups.keys.insertionSort fun x y => x.before y
    let rolledRows := keys.filterMap fun key => (groups.lookup key).map fun acc => (key.ts, b.rolledRow key acc)
    b.ingestParsed rolledRows true

end BatchIngester

end FerroDruid.Ingest
