import FerroDruid.Lib.Json
import FerroDruid.Lib.TreeMap
/-!
# The multi-stage engine

`ferrodruid-msq/src/engine.rs`: cells and rows, partition buffers with their spill
file, the partitioners, the aggregation of rows and the merging of partial rows,
and the stages that run them on workers.
-/

namespace FerroDruid.Msq

open Lib

inductive DruidError where
  | frameTooLong (declares : ℕ)
  | frameInvalid
  | tooManyPartitions (declares : ℕ)
  | shuffleKeyMissing (column : Utf8)
  | groupColumnMissing (column : Utf8)
  | aggregationFieldMissing (field : Utf8)
  | partialTooShort (columns expected : ℕ)
  deriving DecidableEq

/-! ## Cells -/

inductive Value where
  | null
  | long (v : Int64)
  | double (v : F64)
  | str (s : Utf8)
  deriving DecidableEq

namespace Value

def asLong : Value → Int64
  | long v => v
  | double v => v.toI64
  | str s => (parseLong s.bytes).getD 0
  | null => 0

def partitionKeyBytes : Value → Bytes
  | null => [0x00, 0x4E]
  | long v => 0x4C :: decimalInt v.toInt
  | double v => 0x44 :: decimal v.toBits
  | str s => 0x53 :: s.bytes

/-- Null comes first, then the numbers, then the strings. -/
def rank : Value → ℕ
  | null => 0
  | long _ | double _ => 1
  | str _ => 2

def totalCmp (a b : Value) : Ordering :=
  match a, b with
  | null, null => .eq
  | long a, long b => compare a.toInt b.toInt
  | double a, double b => a.totalCmp b
  | long a, double b => F64.totalCmp (.ofInt a.toInt) b
  | double a, long b => a.totalCmp (.ofInt b.toInt)
  | str a, str b => a.bytes.compareLex compareBytes b.bytes
  | a, b => compare a.rank b.rank

/-- `PartialEq`: doubles are equal as numbers. -/
def beq : Value → Value → Bool
  | null, null => true
  | long a, long b => a = b
  | double a, double b => a.beq b
  | str a, str b => a = b
  | _, _ => false

/-- What the frame's estimate takes a cell for. -/
def estimatedBytes : Value → ℕ
  | str s => 16 + s.bytes.length
  | _ => 16

end Value

abbrev Row := List Value

/-- The names of the columns, in order. -/
structure RowSignature where
  columns : List Utf8

namespace RowSignature

def indexOf (sig : RowSignature) (name : Utf8) : Option ℕ := sig.columns.findIdx? (· = name)

end RowSignature

/-- Rows aligned to their signature. -/
structure InputTable where
  signature : RowSignature
  rows : List Row
  aligned : ∀ row ∈ rows, row.length = signature.columns.length

/-! ## Frames -/

/-- What serde_json makes of a value: the length of its text, and the float that the
text of a finite float is read as. -/
structure JsonText where
  length : Json → ℕ
  floatBack : F64 → F64

def MAX_SPILL_FRAME_BYTES : ℕ := 512 * 1024 * 1024

def MAX_SHUFFLE_PARTITIONS : ℕ := 2 ^ 20

def fieldT : Utf8 := ⟨ascii "t", Eq.refl true⟩

def fieldV : Utf8 := ⟨ascii "v", Eq.refl true⟩

def fieldRows : Utf8 := ⟨ascii "rows", Eq.refl true⟩

def tagNull : Utf8 := ⟨ascii "Null", by decide⟩

def tagLong : Utf8 := ⟨ascii "Long", by decide⟩

def tagDouble : Utf8 := ⟨ascii "Double", by decide⟩

def tagStr : Utf8 := ⟨ascii "Str", by decide⟩

namespace Value

/-- The tag of a cell beside its content. -/
def toJson : Value → Json
  | null => .object [(fieldT, .string tagNull)]
  | long v => .object [(fieldT, .string tagLong), (fieldV, .ofI64 v)]
  | double v => .object [(fieldT, .string tagDouble), (fieldV, .ofF64 v)]
  | str s => .object [(fieldT, .string tagStr), (fieldV, .string s)]

def ofJson (text : JsonText) : Json → Option Value
  | .object fields => do
    let tag ← (Json.get fields fieldT).bind Json.asStr
    if tag = tagNull then some null
    else if tag = tagLong then ((Json.get fields fieldV).bind Json.asI64).map long
    else if tag = tagDouble then ((Json.get fields fieldV).bind Json.asF64).map fun v => double (text.floatBack v)
    else if tag = tagStr then ((Json.get fields fieldV).bind Json.asStr).map str
    else none
  | _ => none

end Value

/-- Rows that are moved and spilled together. -/
structure Frame where
  rows : List Row

namespace Frame

def empty : Frame := ⟨[]⟩

def estimatedBytes (frame : Frame) : ℕ := (frame.rows.map fun row => (row.map Value.estimatedBytes).sum).sum

def writeTo (frame : Frame) : Json := .object [(fieldRows, .array (frame.rows.map fun row => .array (row.map Value.toJson)))]

def ofJson (text : JsonText) : Json → Option Frame
  | .object fields => do
    let rows ← (Json.get fields fieldRows).bind Json.asArray
    let rows ← rows.mapM fun row => row.asArray.bind fun cells => cells.mapM (Value.ofJson text)
    some ⟨rows⟩
  | _ => none

/-- The declared length is checked before anything is read. -/
def readFrom (text : JsonText) (written : Json) : Except DruidError Frame :=
  if text.length written > MAX_SPILL_FRAME_BYTES then .error (.frameTooLong (text.length written))
  else
    match ofJson text written with
    | some frame => .ok frame
    | none => .error .frameInvalid

end Frame

/-- The rows of one partition: the frames of the spill file, then those in memory. -/
structure PartitionBuffer where
  mem : Frame
  spillThresholdBytes : ℕ
  spillFile : List Json
  spilledBytes : ℕ

namespace PartitionBuffer

def new (spillThresholdBytes : ℕ) : PartitionBuffer := ⟨.empty, spillThresholdBytes, [], 0⟩

def flushMem (buf : PartitionBuffer) : PartitionBuffer :=
  if buf.mem.rows = [] then buf
  else
    { buf with
      mem := .empty
      spillFile := buf.spillFile ++ [buf.mem.writeTo]
      spilledBytes := buf.spilledBytes + buf.mem.estimatedBytes }

def push (buf : PartitionBuffer) (row : Row) : PartitionBuffer :=
  let buf := { buf with mem := ⟨buf.mem.rows ++ [row]⟩ }
  if 0 < buf.spillThresholdBytes ∧ buf.spillThresholdBytes ≤ buf.mem.estimatedBytes then buf.flushMem else buf

def drain (text : JsonText) (buf : PartitionBuffer) : Except DruidError (List Row) := do
  let frames ← buf.spillFile.mapM (Frame.readFrom text)
  .ok ((frames.map Frame.rows).flatten ++ buf.mem.rows)

end PartitionBuffer

/-! ## Shuffling -/

inductive ShuffleSpec where
  | none
  | hash (key : List Utf8) (partitions : ℕ)
  | range (key : List Utf8) (partitions : ℕ)

def ShuffleSpec.partitionCount : ShuffleSpec → ℕ
  | none => 1
  | hash _ partitions | range _ partitions => max partitions 1

def fnv1a (bytes : Bytes) : UInt64 := bytes.foldl (fun hash b => (hash ^^^ b.toUInt64) * 0x100000001b3) 0xcbf29ce484222325

/-- Cells that a row does not have are left out. -/
def hashPartition (row : Row) (keyIdx : List ℕ) (partitions : ℕ) : ℕ :=
  if partitions ≤ 1 then 0
  else
    let joined := keyIdx.flatMap fun i =>
      match row[i]? with
      | some cell => cell.partitionKeyBytes ++ [0x01]
      | none => []
    (fnv1a joined).toNat % partitions

/-- Compare by the key columns. -/
def cmpByKeys (a b : Row) : List ℕ → Ordering
  | [] => .eq
  | i :: keyIdx => ((a.getD i .null).totalCmp (b.getD i .null)).then (cmpByKeys a b keyIdx)

/-- Where the rows go, the rank of a row deciding: the next bucket once the current
one has its share, except amid rows of one key. -/
structure RangeState where
  buckets : List (List Row)
  curBucket : ℕ
  placedInCur : ℕ
  prevKey : Option Row

def rangePlace (keyIdx : List ℕ) (n per : ℕ) (st : RangeState) (row : Row) : RangeState :=
  let thisKey := keyIdx.filterMap (row[·]?)
  let sameAsPrev := st.prevKey.any fun prevKey => prevKey.length = thisKey.length && (prevKey.zipWith Value.beq thisKey).all id
  let st :=
    if per ≤ st.placedInCur ∧ st.curBucket + 1 < n ∧ ¬ sameAsPrev then
      { st with curBucket := st.curBucket + 1, placedInCur := 0 }
    else st
  { buckets := st.buckets.modify st.curBucket (· ++ [row])
    curBucket := st.curBucket
    placedInCur := st.placedInCur + 1
    prevKey := some thisKey }

def rangePartition (rows : List Row) (keyIdx : List ℕ) (n : ℕ) : List (List Row) :=
  if n ≤ 1 then [rows]
  else
    let indexed := rows.insertionSort fun a b => cmpByKeys a b keyIdx ≠ .gt
    let per := (rows.length + n - 1) / n
    (indexed.foldl (rangePlace keyIdx n per) ⟨List.replicate n [], 0, 0, none⟩).buckets

/-- The place of a column, which has to be there. -/
def resolveColumn (sig : RowSignature) (missing : Utf8 → DruidError) (name : Utf8) : Except DruidError ℕ :=
  match sig.indexOf name with
  | some i => .ok i
  | none => .error (missing name)

def resolveKey (sig : RowSignature) (key : List Utf8) : Except DruidError (List ℕ) := key.mapM (resolveColumn sig .shuffleKeyMissing)

def partitionRows (rows : List Row) (sig : RowSignature) (spec : ShuffleSpec) : Except DruidError (List (List Row)) :=
  let n := spec.partitionCount
  if n > MAX_SHUFFLE_PARTITIONS then .error (.tooManyPartitions n)
  else
    match spec with
    | .none => .ok [rows]
    | .hash key _ => do
      let keyIdx ← resolveKey sig key
      .ok ((List.range n).map fun p => rows.filter (hashPartition · keyIdx n = p))
    | .range key _ => do
      let keyIdx ← resolveKey sig key
      .ok (rangePartition rows keyIdx n)

/-! ## Aggregation -/

inductive AggFn where
  | count
  | longSum (field : Utf8)
  | longMin (field : Utf8)
  | longMax (field : Utf8)
  deriving DecidableEq

namespace AggFn

def field? : AggFn → Option Utf8
  | count => none
  | longSum field | longMin field | longMax field => some field

end AggFn

/-- `Ord::min`. -/
def minLong (a b : Int64) : Int64 := if b < a then b else a

def maxLong (a b : Int64) : Int64 := if a < b then b else a

inductive AggState where
  | count (c : Int64)
  | sum (s : Int64)
  | min (m : Option Int64)
  | max (m : Option Int64)
  deriving DecidableEq

namespace AggState

def init : AggFn → AggState
  | .count => count 0
  | .longSum _ => sum 0
  | .longMin _ => min none
  | .longMax _ => max none

def accumulate (st : AggState) (v : Int64) : AggState :=
  match st with
  | count c => count (c + 1)
  | sum s => sum (s + v)
  | min m => min (some (m.elim v (minLong · v)))
  | max m => max (some (m.elim v (maxLong · v)))

def merge (a b : AggState) : AggState :=
  match a, b with
  | count a, count b => count (a + b)
  | sum a, sum b => sum (a + b)
  | min a, min b => min (Option.merge minLong a b)
  | max a, max b => max (Option.merge maxLong a b)
  | a, _ => a

def finalize : AggState → Value
  | count c => .long c
  | sum s => .long s
  | min m => m.elim .null .long
  | max m => m.elim .null .long

/-- The state that a partial value stands for. -/
def ofPartial (agg : AggFn) (slot : AggState) (partialVal : Int64) : AggState :=
  match agg with
  | .count | .longSum _ =>
    match slot with
    | count _ => count partialVal
    | _ => sum partialVal
  | .longMin _ => min (some partialVal)
  | .longMax _ => max (some partialVal)

end AggState

def groupKeyString (row : Row) (groupIdx : List ℕ) : Bytes :=
  groupIdx.flatMap fun i => (row[i]?).elim [] Value.partitionKeyBytes ++ [0x01]

def resolveGroup (sig : RowSignature) (groupCols : List Utf8) : Except DruidError (List ℕ) :=
  groupCols.mapM (resolveColumn sig .groupColumnMissing)

/-- A count has no field. -/
def resolveField (sig : RowSignature) (agg : AggFn) : Except DruidError (Option ℕ) :=
  match agg.field? with
  | none => .ok none
  | some field => (resolveColumn sig .aggregationFieldMissing field).map some

def resolveFields (sig : RowSignature) (aggs : List AggFn) : Except DruidError (List (Option ℕ)) := aggs.mapM (resolveField sig)

/-- What an aggregate is fed for a row. -/
def aggInput (row : Row) (fieldIdx : Option ℕ) : Int64 :=
  match fieldIdx with
  | some i => (row[i]?).elim 0 Value.asLong
  | none => 0

/-- The key and the states of a group before its first row. -/
def startGroup (groupIdx : List ℕ) (aggs : List AggFn) (row : Row) : Row × List AggState :=
  (groupIdx.map (row.getD · .null), aggs.map AggState.init)

def feedGroup (aggFieldIdx : List (Option ℕ)) (entry : Row × List AggState) (row : Row) : Row × List AggState :=
  (entry.1, entry.2.zipWith (fun slot fieldIdx => slot.accumulate (aggInput row fieldIdx)) aggFieldIdx)

/-- A group as a row. -/
def groupRow (entry : Row × List AggState) : Row := entry.1 ++ entry.2.map AggState.finalize

def aggregateRows (rows : List Row) (sig : RowSignature) (groupCols : List Utf8) (aggs : List AggFn) : Except DruidError (List Row) := do
  let groupIdx ← resolveGroup sig groupCols
  let aggFieldIdx ← resolveFields sig aggs
  let groups := groupFold (groupKeyString · groupIdx) (startGroup groupIdx aggs) (feedGroup aggFieldIdx) rows ∅
  .ok ((inKeyOrder groups).map fun group => groupRow group.2)

def startPartial (nGroup : ℕ) (aggs : List AggFn) (row : Row) : Row × List AggState :=
  (row.take nGroup, aggs.map AggState.init)

def feedPartial (nGroup : ℕ) (aggs : List AggFn) (entry : Row × List AggState) (row : Row) : Row × List AggState :=
  (entry.1, entry.2.zipWith (fun slot p => slot.merge (.ofPartial p.1 slot p.2.asLong)) (aggs.zip (row.drop nGroup)))

def mergePartials (partials : List (List Row)) (nGroup : ℕ) (aggs : List AggFn) : Except DruidError (List Row) :=
  match partials.flatten.find? (·.length < nGroup + aggs.length) with
  | some row => .error (.partialTooShort row.length (nGroup + aggs.length))
  | none =>
    let groups := groupFold (groupKeyString · (List.range nGroup)) (startPartial nGroup aggs) (feedPartial nGroup aggs) partials.flatten ∅
    .ok ((inKeyOrder groups).map fun group => groupRow group.2)

/-! ## Stages -/

structure EngineConfig where
  workers : ℕ
  spillThresholdBytes : ℕ

structure WorkerCounters where
  worker : ℕ
  rowsIn : ℕ
  rowsOut : ℕ
  bytesSpilled : ℕ
  deriving DecidableEq

structure StageCounters where
  workerCount : ℕ
  rowsIn : ℕ
  rowsOut : ℕ
  bytesSpilled : ℕ
  workers : List WorkerCounters
  deriving DecidableEq

/-- The partitions from `p` on that a worker takes, in strides; at most `fuel`. -/
def strides (len step : ℕ) : ℕ → ℕ → List ℕ
  | 0, _ => []
  | fuel + 1, p => if p < len then p :: strides len step fuel (p + step) else []

/-- A partition goes through a buffer that may spill it. -/
def bufferPartition (text : JsonText) (spillThreshold : ℕ) (rows : List Row) : Except DruidError (List Row × ℕ) := do
  let buf := rows.foldl PartitionBuffer.push (.new spillThreshold)
  let drained ← buf.drain text
  .ok (drained, buf.spilledBytes)

/-- The partial rows of a partition, how many rows it has and what it spilled. -/
def aggregatePart (text : JsonText) (sig : RowSignature) (groupBy : List Utf8) (aggs : List AggFn) (spillThreshold : ℕ) (rows : List Row) :
    Except DruidError (List Row × ℕ × ℕ) := do
  let (drained, spilled) ← bufferPartition text spillThreshold rows
  let agg ← aggregateRows drained sig groupBy aggs
  .ok (agg, drained.length, spilled)

/-- One worker of an aggregate stage: its counters and its partial rows. -/
def aggregateWorker (text : JsonText) (sig : RowSignature) (groupBy : List Utf8) (aggs : List AggFn) (spillThreshold : ℕ)
    (parts : List (List Row)) (nWorkers w : ℕ) : Except DruidError (WorkerCounters × List Row) := do
  let done ← (strides parts.length nWorkers parts.length w).mapM fun p => aggregatePart text sig groupBy aggs spillThreshold (parts.getD p [])
  let partials := (done.map (·.1)).flatten
  .ok (⟨w, (done.map (·.2.1)).sum, partials.length, (done.map (·.2.2)).sum⟩, partials)

/-- The workers of an aggregate stage, over partitions however made, and the merging
of their partial rows. -/
def aggregatePartitions (text : JsonText) (sig : RowSignature) (groupBy : List Utf8) (aggs : List AggFn) (config : EngineConfig)
    (parts : List (List Row)) : Except DruidError (List Row × StageCounters) := do
  let nWorkers := min (max config.workers 1) (max parts.length 1)
  let workers ← (List.range nWorkers).mapM (aggregateWorker text sig groupBy aggs config.spillThresholdBytes parts nWorkers)
  let merged ← mergePartials (workers.map (·.2)) groupBy.length aggs
  .ok (merged, ⟨nWorkers, (parts.map List.length).sum, merged.length, (workers.map (·.1.bytesSpilled)).sum, workers.map (·.1)⟩)

def aggregateShuffle (groupBy : List Utf8) (config : EngineConfig) : ShuffleSpec :=
  if groupBy = [] then .none else .hash groupBy (max config.workers 1)

def runAggregate (text : JsonText) (sig : RowSignature) (groupBy : List Utf8) (aggs : List AggFn) (config : EngineConfig)
    (inRows : List Row) : Except DruidError (List Row × StageCounters) := do
  let partitioned ← partitionRows inRows sig (aggregateShuffle groupBy config)
  aggregatePartitions text sig groupBy aggs config partitioned

/-- One worker of a shuffle stage: its counters and its rows beside their partition. -/
def shuffleWorker (text : JsonText) (spillThreshold : ℕ) (parts : List (List Row)) (nWorkers w : ℕ) :
    Except DruidError (WorkerCounters × List (ℕ × Row)) := do
  let done ← (strides parts.length nWorkers parts.length w).mapM fun p => do
    let (drained, spilled) ← bufferPartition text spillThreshold (parts.getD p [])
    .ok (drained.map (p, ·), spilled)
  let rows := (done.map (·.1)).flatten
  .ok (⟨w, rows.length, rows.length, (done.map (·.2)).sum⟩, rows)

/-- The rows in the order of their partitions. -/
def runShuffle (text : JsonText) (sig : RowSignature) (shuffle : ShuffleSpec) (config : EngineConfig) (inRows : List Row) :
    Except DruidError (List Row × StageCounters) := do
  let parts ← partitionRows inRows sig shuffle
  let nWorkers := min (max config.workers 1) (max parts.length 1)
  let workers ← (List.range nWorkers).mapM (shuffleWorker text config.spillThresholdBytes parts nWorkers)
  let tagged := (workers.map (·.2)).flatten
  let out := (tagged.insertionSort fun a b => a.1 ≤ b.1).map (·.2)
  .ok (out, ⟨nWorkers, inRows.length, (workers.map (·.1.rowsOut)).sum, (workers.map (·.1.bytesSpilled)).sum, workers.map (·.1)⟩)

end FerroDruid.Msq
