import FerroDruid.Segment.Smoosh
/-!
# The v9 segment writer

`build_smoosh_writer` of `ferrodruid-segment/src/writer.rs` with its guard on
column names, and the reading of `index.drd` in `ferrodruid-segment/src/v9.rs`.

The column encoders and the reader of the upstream index layout are parameters.
-/

namespace FerroDruid.Segment

open Lib

/-! ## Columns -/

/-- The variants of `ColumnData`. -/
inductive ColumnKind where
  | long
  | longNullable
  | float
  | double
  | string
  | stringMulti
  | complex
  | complexTheta
  | complexHyperUnique
  deriving DecidableEq, Repr

structure ColumnDescriptor where
  valueType : String
  hasMultipleValues : Bool
  hasBitmapIndexes : Bool
  hasSpatialIndexes : Bool
  hasNulls : Bool
  complexTypeName : Option String

def columnDescriptorFor : ColumnKind → ColumnDescriptor
  | .long => ⟨"LONG", false, false, false, false, none⟩
  | .longNullable => ⟨"LONG", false, false, false, true, none⟩
  | .float => ⟨"FLOAT", false, false, false, false, none⟩
  | .double => ⟨"DOUBLE", false, false, false, false, none⟩
  | .string => ⟨"STRING", false, true, false, false, none⟩
  | .stringMulti => ⟨"STRING", true, true, false, false, none⟩
  | .complex => ⟨"COMPLEX", false, false, false, false, none⟩
  | .complexTheta => ⟨"COMPLEX", false, false, false, false, some "thetaSketch"⟩
  | .complexHyperUnique => ⟨"COMPLEX", false, false, false, false, some "hyperUnique"⟩

def jsonField (key value : String) : Bytes := ascii ("\"" ++ key ++ "\":" ++ value)

/-- As `serde_json` writes it: no null flag unless it is set, no complex type
name unless there is one. -/
def descriptorJson (d : ColumnDescriptor) : Bytes :=
  let fields := [jsonField "valueType" ("\"" ++ d.valueType ++ "\""), jsonField "hasMultipleValues" (toString d.hasMultipleValues),
      jsonField "hasBitmapIndexes" (toString d.hasBitmapIndexes), jsonField "hasSpatialIndexes" (toString d.hasSpatialIndexes)] ++
    (if d.hasNulls then [jsonField "hasNulls" "true"] else []) ++
    d.complexTypeName.toList.map fun name => jsonField "complexTypeName" ("\"" ++ name ++ "\"")
  [0x7B] ++ [comma].intercalate fields ++ [0x7D]

/-- Column data, and the bytes of a column when it can be encoded. -/
structure ColumnCodec (C : Type) where
  kind : C → ColumnKind
  encode : C → Option Bytes

structure Interval where
  startMillis : Int64
  endMillis : Int64
  deriving DecidableEq

structure SegmentData (C : Type) where
  interval : Interval
  dimensions : List Utf8
  metrics : List Utf8
  columns : HashMap Utf8 C

/-! ## Column names -/

inductive WriteError where
  | emptyName
  | reservedName (name : Utf8)
  | unrepresentableName (name : Utf8)
  | nameTooLong (name : Utf8)
  | duplicateName (name : Utf8)
  | missingDimension (name : Utf8)
  | missingMetric (name : Utf8)
  | vanished (name : Utf8)
  | encode (name : Utf8)
  | smoosh (e : SmooshError)
  deriving DecidableEq

def versionBin : Bytes := ascii "version.bin"

def indexDrd : Bytes := ascii "index.drd"

def reservedSegmentEntryNames : List Bytes :=
  [versionBin, ascii "factory.json", ascii "meta.smoosh", ascii "metadata.drd", indexDrd]

def validateSmooshEntryName (name : Utf8) : Except WriteError Unit :=
  if name.bytes = [] then .error .emptyName
  else if name.bytes ∈ reservedSegmentEntryNames then .error (.reservedName name)
  else if comma ∈ name.bytes ∨ newline ∈ name.bytes ∨ 0x0D ∈ name.bytes ∨ 0x2F ∈ name.bytes then .error (.unrepresentableName name)
  else .ok ()

def validateColumnNames : (seen : List Utf8) → List Utf8 → Except WriteError Unit
  | _, [] => .ok ()
  | seen, name :: names =>
    match validateSmooshEntryName name with
    | .error e => .error e
    | .ok () =>
      if 65535 < name.bytes.length then .error (.nameTooLong name)
      else if name ∈ seen then .error (.duplicateName name)
      else validateColumnNames (name :: seen) names

/-! ## The index -/

def lengthPrefixed (name : Utf8) : Bytes := beBytes 2 name.bytes.length ++ name.bytes

def millis (t : Int64) : Bytes := beBytes 8 t.toBitVec.toNat

/-- The last field is the bitmap type. -/
def encodeIndexDrd (dimensions metrics : List Utf8) (interval : Interval) : Bytes :=
  beBytes 4 9 ++ beBytes 4 dimensions.length ++ dimensions.flatMap lengthPrefixed ++ beBytes 4 metrics.length ++
    metrics.flatMap lengthPrefixed ++ millis interval.startMillis ++ millis interval.endMillis ++ beBytes 4 1

inductive IndexError where
  | ended
  | stringTruncated (len pos : ℕ)
  | invalidUtf8
  | tooManyDimensions (count : ℕ)
  | tooManyMetrics (count : ℕ)
  | smoosh (e : SmooshError)
  | native
  deriving DecidableEq

structure IndexDrd where
  dimensions : List Utf8
  metrics : List Utf8
  interval : Interval
  deriving DecidableEq

/-- A big-endian number, and the position after it. -/
def readBe (data : Bytes) (w pos : ℕ) : Except IndexError (ℕ × ℕ) :=
  if data.length < pos + w then .error .ended else .ok (beAt data w pos, pos + w)

def readLengthPrefixedString (data : Bytes) (pos : ℕ) : Except IndexError (Utf8 × ℕ) := do
  let (len, pos) ← readBe data 2 pos
  if data.length < pos + len then throw (.stringTruncated len pos)
  match Utf8.ofBytes? ((data.drop pos).take len) with
  | none => throw .invalidUtf8
  | some s => return (s, pos + len)

def readStrings (data : Bytes) : ℕ → ℕ → Except IndexError (List Utf8 × ℕ)
  | 0, pos => .ok ([], pos)
  | n + 1, pos => do
    let (s, pos) ← readLengthPrefixedString data pos
    let (rest, pos) ← readStrings data n pos
    return (s :: rest, pos)

/-- Zero when the bytes are not there. -/
def readMillis (data : Bytes) (pos : ℕ) : Int64 × ℕ :=
  if pos + 8 ≤ data.length then (.ofBitVec (.ofNat 64 (beAt data 8 pos)), pos + 8) else (0, pos)

def maxDimensions : ℕ := 16384

def maxMetrics : ℕ := 16384

/-- The private layout, which leads with the version. -/
def parseIndexDrd (native : Bytes → Except IndexError IndexDrd) (data : Bytes) : Except IndexError IndexDrd := do
  let (version, pos) ← readBe data 4 0
  if version ≠ 9 then native data
  else
    let (numDims, pos) ← readBe data 4 pos
    if maxDimensions < numDims then throw (.tooManyDimensions numDims)
    let (dimensions, pos) ← readStrings data numDims pos
    let (numMetrics, pos) ← readBe data 4 pos
    if maxMetrics < numMetrics then throw (.tooManyMetrics numMetrics)
    let (metrics, pos) ← readStrings data numMetrics pos
    let (start, pos) := readMillis data pos
    let (stop, _) := readMillis data pos
    return ⟨dimensions, metrics, ⟨start, stop⟩⟩

def readIndexDrd (native : Bytes → Except IndexError IndexDrd) (r : SmooshReader) : Except IndexError IndexDrd :=
  match r.readFile indexDrd with
  | .error e => .error (.smoosh e)
  | .ok data => parseIndexDrd native data

/-! ## The archive -/

def timeColumn : Utf8 := ⟨ascii "__time", Eq.refl true⟩

def descriptorName (name : Utf8) : Bytes := name.bytes ++ ascii ".column_descriptor.json"

variable {C : Type}

/-- The declared columns, `__time` apart, each of which has data. -/
def collectNames (columns : HashMap Utf8 C) (missing : Utf8 → WriteError) : List Utf8 → Except WriteError (List Utf8)
  | [] => .ok []
  | name :: names =>
    if name = timeColumn then collectNames columns missing names
    else if columns.lookup name = none then .error (missing name)
    else do
      let rest ← collectNames columns missing names
      return name :: rest

/-- The columns in the order they are written. -/
def columnNames (segment : SegmentData C) : Except WriteError (List Utf8) := do
  let dimensions ← collectNames segment.columns .missingDimension segment.dimensions
  let metrics ← collectNames segment.columns .missingMetric segment.metrics
  return (if segment.columns.lookup timeColumn = none then [] else [timeColumn]) ++ dimensions ++ metrics

/-- The descriptor and the data of each column. -/
def columnFiles (codec : ColumnCodec C) (columns : HashMap Utf8 C) : List Utf8 → Except WriteError (List (Bytes × Bytes))
  | [] => .ok []
  | name :: names =>
    match columns.lookup name with
    | none => .error (.vanished name)
    | some column =>
      match codec.encode column with
      | none => .error (.encode name)
      | some bytes => do
        let rest ← columnFiles codec columns names
        return (descriptorName name, descriptorJson (columnDescriptorFor (codec.kind column))) :: (name.bytes, bytes) :: rest

def buildSmooshWriter (codec : ColumnCodec C) (segment : SegmentData C) : Except WriteError (List (Bytes × Bytes)) := do
  validateColumnNames [] (segment.dimensions ++ segment.metrics)
  let names ← columnNames segment
  let columns ← columnFiles codec segment.columns names
  return (versionBin, beBytes 4 9) :: (indexDrd, encodeIndexDrd segment.dimensions segment.metrics segment.interval) :: columns

def writeSegmentV9ToMemory (codec : ColumnCodec C) (segment : SegmentData C) : Except WriteError (Bytes × List Bytes) := do
  let files ← buildSmooshWriter codec segment
  match finish files with
  | .ok parts => return parts
  | .error e => throw (.smoosh e)

end FerroDruid.Segment
