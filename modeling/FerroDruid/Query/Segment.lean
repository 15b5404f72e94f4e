import FerroDruid.Lib.Json
/-!
# What a query reads of a segment

The row maps, intervals and row checks that the executors of `ferrodruid-query`
share. A row map is known by its lookups. How a column decodes to a cell, what an
expression computes and what a filter matches are parameters.
-/

namespace FerroDruid.Query

open Lib

/-- Errors of a query; `overflow` is where integer arithmetic leaves its range and the
code does not go on. -/
inductive DruidError where
  | query (text : String)
  | resourceLimit (kind : String) (limit observed : ℕ)
  | overflow
  deriving DecidableEq

/-- A `HashMap` or `serde_json::Map` of cells, by its lookups. -/
abbrev JsonMap := String → Option Json

namespace JsonMap

def empty : JsonMap := fun _ => none

def insert (m : JsonMap) (name : String) (value : Json) : JsonMap := fun key => if key = name then some value else m key

@[simp] theorem insert_self (m : JsonMap) (name : String) (value : Json) : m.insert name value name = some value := if_pos rfl

theorem insert_of_ne (m : JsonMap) {name key : String} (value : Json) (h : key ≠ name) : m.insert name value key = m key := if_neg h

end JsonMap

/-- A decoded segment: its `__time` column and the row maps of `build_row`. -/
structure SegmentData where
  numRows : ℕ
  dimensions : List String
  metrics : List String
  timestamps : List Int64
  row : ℕ → JsonMap
  timed : ∀ rowIdx ts, timestamps[rowIdx]? = some ts → row rowIdx "__time" = some (.ofI64 ts)

/-- A segment with no column but `__time`. -/
def SegmentData.ofTimes (timestamps : List Int64) : SegmentData where
  numRows := timestamps.length
  dimensions := []
  metrics := []
  timestamps := timestamps
  row rowIdx col := if col = "__time" then some ((timestamps[rowIdx]?.map Json.ofI64).getD .null) else none
  timed rowIdx ts h := by simp [h]

/-- Compiled virtual columns; none may be named `__time`. -/
structure VirtualColumns where
  names : List String
  ensureNoMultiValueRefs : SegmentData → Except DruidError Unit
  augmentRow : JsonMap → JsonMap
  kept : ∀ row name, name ∉ names → augmentRow row name = row name
  reserved : "__time" ∉ names

def VirtualColumns.none : VirtualColumns where
  names := []
  ensureNoMultiValueRefs _ := .ok ()
  augmentRow row := row
  kept _ _ _ := rfl
  reserved := List.not_mem_nil

structure FilterSpec where
  validate : Except DruidError Unit
  ensureMultiValueSupported : SegmentData → VirtualColumns → Except DruidError Unit
  matchesRow : JsonMap → Bool

/-! ## Intervals -/

/-- The parts of a text before and after its first slash. -/
def splitInterval (s : String) : Option (String × String) :=
  match s.toList.span (· ≠ '/') with
  | (start, _ :: stop) => some (.ofList start, .ofList stop)
  | (_, []) => none

def parseInterval (parseIsoMillis : String → Option Int64) (s : String) : Option (Int64 × Int64) := do
  let (start, stop) ← splitInterval s
  let start ← parseIsoMillis start
  let stop ← parseIsoMillis stop
  some (start, stop)

/-- A malformed interval fails the query. -/
def parseIntervals (parseIsoMillis : String → Option Int64) : List String → Except DruidError (List (Int64 × Int64))
  | [] => .ok []
  | s :: rest =>
    match parseInterval parseIsoMillis s with
    | some pair => do
      let out ← parseIntervals parseIsoMillis rest
      .ok (pair :: out)
    | none => .error (.query ("invalid interval \"" ++ s ++ "\"; expected an ISO-8601 \"start/end\" pair"))

/-- No interval is all time. -/
def inIntervals (intervals : List (Int64 × Int64)) (ts : Int64) : Bool :=
  intervals.isEmpty || intervals.any fun interval => interval.1 ≤ ts && ts < interval.2

/-! ## Dimension specs

`DimensionSpec` of `ferrodruid-common/src/types.rs`: a column with an output
name, an extraction over it, and filters around one of these. -/

inductive ColumnType where
  | long
  | float
  | double
  | string
  | complex (name : String)
  deriving DecidableEq

inductive NullHandling where
  | nullString
  | emptyString
  | returnNull

/-- `Lookup`, `SearchQuery` and the two of times pass a value on as it is; what
they are given is not read. -/
inductive ExtractionFunction where
  | regex (expr : Utf8) (index : Option ℕ) (replaceMissingValue : Bool) (replaceMissingValueWith groupName : Option Utf8)
  | partialMatch (expr : Utf8)
  | searchQuery
  | strlen
  | timeFormat
  | time
  | substring (index : ℕ) (length : Option ℕ)
  | upper
  | lower
  | bucket (size offset : F64)
  | cascade (extractionFns : List ExtractionFunction)
  | stringFormat (nullHandling : NullHandling) (format : Utf8)
  | lookup
  | registeredLookup

inductive DimensionSpec where
  | default (dimension outputName : String) (outputType : ColumnType)
  | extraction (dimension outputName : String) (extractionFn : ExtractionFunction)
  | listFiltered (delegate : DimensionSpec) (values : List Utf8) (isWhitelist : Bool)
  | regexFiltered (delegate : DimensionSpec) (pattern : Utf8)
  | prefixFiltered (delegate : DimensionSpec) (start : Utf8)

namespace DimensionSpec

/-- `dim_spec_input_name`, through the filters. -/
def inputName : DimensionSpec → String
  | default dimension _ _ | extraction dimension _ _ => dimension
  | listFiltered delegate _ _ | regexFiltered delegate _ | prefixFiltered delegate _ => inputName delegate

/-- `dimension_output_name`, through the filters. -/
def outputName : DimensionSpec → String
  | default _ outputName _ | extraction _ outputName _ => outputName
  | listFiltered delegate _ _ | regexFiltered delegate _ | prefixFiltered delegate _ => outputName delegate

end DimensionSpec

end FerroDruid.Query
