import FerroDruid.Query.Segment
import FerroDruid.Lib.Window
/-!
# Scan queries

`ScanQuery::execute` of `ferrodruid-query/src/scan.rs`: the rows of a segment that
match, in time order or as they are stored, without the first `offset` and up to
`limit` of them.
-/

namespace FerroDruid.Query

open Lib

/-- The virtual columns are as `VirtualColumns::compile` returns them. -/
structure ScanQuery where
  intervals : List String
  filter : Option FilterSpec
  virtualColumns : Except DruidError VirtualColumns
  columns : Option (List String)
  limit : Option ℕ
  offset : Option ℕ
  order : Option String
  resultFormat : Option String

structure ScanResult where
  segmentId : Option String
  columns : List String
  events : List JsonMap

namespace ScanQuery

variable (parseIsoMillis : String → Option Int64) (q : ScanQuery)

/-! ## Checks -/

def checkResultFormat : Except DruidError Unit :=
  match q.resultFormat with
  | some fmt =>
    if fmt = "list" ∨ fmt = "compactedList" then .ok ()
    else .error (.query ("Scan: unsupported resultFormat \"" ++ fmt ++ "\"; expected \"list\" or \"compactedList\""))
  | none => .ok ()

def checkOrder : Except DruidError Unit :=
  match q.order with
  | some order =>
    if order = "ascending" ∨ order = "descending" ∨ order = "none" then .ok ()
    else .error (.query ("Scan: unsupported order \"" ++ order ++ "\"; expected \"ascending\", \"descending\", or \"none\""))
  | none => .ok ()

def validateFilter : Except DruidError Unit :=
  match q.filter with
  | some filter => filter.validate
  | none => .ok ()

def ensureFilterSupported (segment : SegmentData) (virtualColumns : VirtualColumns) : Except DruidError Unit :=
  match q.filter with
  | some filter => filter.ensureMultiValueSupported segment virtualColumns
  | none => .ok ()

/-! ## Rows -/

variable (virtualColumns : VirtualColumns) (segment : SegmentData)

def allColumns : List String :=
  let cols := "__time" :: (segment.dimensions ++ segment.metrics)
  virtualColumns.names.foldl (fun cols name => if name ∈ cols then cols else cols ++ [name]) cols

def outputColumns : List String :=
  match q.columns with
  | some requested => if requested.isEmpty then allColumns virtualColumns segment else requested
  | none => allColumns virtualColumns segment

def orderIsTimeSorted : Bool := q.order = some "descending" ∨ q.order = none ∨ q.order = some "ascending"

/-- An unordered scan stops when it has enough rows. -/
def earlyCutoff : Option ℕ := if q.orderIsTimeSorted then none else q.limit.map (q.offset.getD 0 + ·)

def accepts (intervals : List (Int64 × Int64)) (rowIdx : ℕ) (ts : Int64) : Bool :=
  inIntervals intervals ts && match q.filter with
    | some filter => filter.matchesRow (virtualColumns.augmentRow (segment.row rowIdx))
    | none => true

/-- The loop over the rows. -/
def collectRows (intervals : List (Int64 × Int64)) (cutoff : Option ℕ) : List (Int64 × ℕ) → List ℕ → List ℕ
  | [], rowIndices => rowIndices
  | (ts, rowIdx) :: rows, rowIndices =>
    if q.accepts virtualColumns segment intervals rowIdx ts then
      let rowIndices := rowIndices ++ [rowIdx]
      if (cutoff.any fun cap => cap ≤ rowIndices.length) then rowIndices else collectRows intervals cutoff rows rowIndices
    else collectRows intervals cutoff rows rowIndices

/-- Rows are in the order of this key. -/
def timeKey (order : Option String) (ts : Int64) : ℤ := if order = some "descending" then -ts.toInt else ts.toInt

def timestampAt (rowIdx : ℕ) : Int64 := segment.timestamps[rowIdx]?.getD 0

def applyOrder (rowIndices : List ℕ) : List ℕ :=
  if q.orderIsTimeSorted then sortBy (fun rowIdx => timeKey q.order (timestampAt segment rowIdx)) rowIndices else rowIndices

def applyOffset (rowIndices : List ℕ) : List ℕ :=
  let offset := q.offset.getD 0
  if 0 < offset ∧ offset < rowIndices.length then rowIndices.drop offset
  else if rowIndices.length ≤ offset then [] else rowIndices

def applyLimit (rowIndices : List ℕ) : List ℕ :=
  match q.limit with
  | some limit => rowIndices.take limit
  | none => rowIndices

def event (rowIdx : ℕ) : JsonMap := fun col =>
  if col ∈ q.outputColumns virtualColumns segment then virtualColumns.augmentRow (segment.row rowIdx) col else none

def execute : Except DruidError ScanResult := do
  q.checkResultFormat
  q.checkOrder
  q.validateFilter
  let virtualColumns ← q.virtualColumns
  virtualColumns.ensureNoMultiValueRefs segment
  q.ensureFilterSupported segment virtualColumns
  let intervals ← parseIntervals parseIsoMillis q.intervals
  let rowIndices := q.collectRows virtualColumns segment intervals q.earlyCutoff (segment.timestamps.zipIdx.take segment.numRows) []
  let rowIndices := q.applyLimit (q.applyOffset (q.applyOrder segment rowIndices))
  .ok ⟨none, q.outputColumns virtualColumns segment, rowIndices.map (q.event virtualColumns segment)⟩

end ScanQuery

end FerroDruid.Query
