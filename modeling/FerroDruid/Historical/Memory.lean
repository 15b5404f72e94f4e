import FerroDruid.Lib.Float64
import FerroDruid.Lib.Saturating
import Mathlib.Data.List.Nodup
/-!
# What a segment weighs

`estimate_segment_bytes` and the cached schema of
`ferrodruid-historical/src/lib.rs` measure allocations, so vectors and strings
have a capacity here. A copy has just the capacity that it needs.

Bitmaps and sketches are of other libraries; what they weigh is a parameter, and
so are the sizes that the compiler gives the types.
-/

namespace FerroDruid.Historical

open Lib

/-! ## Allocations -/

structure Vec (α : Type) where
  items : List α
  capacity : UInt64

namespace Vec

variable {α : Type}

/-- `Vec::clone`, with the clone of an item. -/
def clone (cloneItem : α → α) (v : Vec α) : Vec α := ⟨v.items.map cloneItem, .ofNat v.items.length⟩

end Vec

/-- A `String`. -/
structure Text where
  text : String
  capacity : UInt64
  deriving DecidableEq

/-- `str::to_owned`. -/
def Text.ofStr (s : String) : Text := ⟨s, .ofNat s.utf8ByteSize⟩

def Text.clone (t : Text) : Text := .ofStr t.text

/-- The sizes of the types, and what is used of the bitmap and sketch libraries. -/
structure Platform (B T H : Type) where
  sizeOfSegmentData : UInt64
  sizeOfSegmentEntry : UInt64
  sizeOfColumnSlot : UInt64
  sizeOfTypedColumn : UInt64
  sizeOfString : UInt64
  sizeOfBitmap : UInt64
  sizeOfThetaSketch : UInt64
  sizeOfHyperUnique : UInt64
  bitmapHeapBytes : B → UInt64
  cloneBitmap : B → B
  retained : T → UInt64
  cloneThetaSketch : T → T
  cloneHyperUnique : H → H
  /-- The capacity of a vector that some items were collected to. -/
  collected : ℕ → UInt64

def allocationBytes (sizeOf capacity : UInt64) : UInt64 := saturatingMul capacity sizeOf

def hashTableBytes (sizeOf capacity : UInt64) : UInt64 :=
  if capacity = 0 then 0
  else
    let minBuckets := saturatingMul capacity 8 / 7 + 1
    let buckets : UInt64 := .ofNat (max minBuckets 4).toNat.nextPowerOfTwo
    saturatingAdd (saturatingMul buckets (saturatingAdd sizeOf 1)) 128

def sumFrom {α : Type} (start : UInt64) (bytes : α → UInt64) (items : List α) : UInt64 :=
  items.foldl (fun total item => saturatingAdd total (bytes item)) start

/-! ## Segments -/

section

variable {B T H : Type}

inductive ColumnData (B T H : Type) where
  | long (values : Vec Int64)
  | longNullable (values : Vec Int64) (nulls : B)
  | float (values : Vec UInt32)
  | double (values : Vec F64)
  | string (dictionary : Vec Text) (encodedValues : Vec UInt32) (bitmapIndexes : Vec B)
  | stringMulti (dictionary : Vec Text) (ordinals rowOffsets : Vec UInt32) (bitmapIndexes : Vec B)
  | complex (bytes : Vec UInt8)
  | complexTheta (sketches : Vec T)
  | complexHyperUnique (sketches : Vec H)

/-- The columns by name, in the order of the map. -/
structure Columns (B T H : Type) where
  entries : List (Text × ColumnData B T H)
  capacity : UInt64
  nodup : (entries.map (·.1.text)).Nodup

def Columns.get (columns : Columns B T H) (name : String) : Option (ColumnData B T H) :=
  (columns.entries.find? fun e => e.1.text = name).map (·.2)

structure SegmentData (B T H : Type) where
  numRows : ℕ
  dimensions : Vec Text
  metrics : Vec Text
  columns : Columns B T H
  timeSorted : Bool

variable (p : Platform B T H)

def ColumnData.clone : ColumnData B T H → ColumnData B T H
  | long values => .long (values.clone id)
  | longNullable values nulls => .longNullable (values.clone id) (p.cloneBitmap nulls)
  | float values => .float (values.clone id)
  | double values => .double (values.clone id)
  | string dictionary encodedValues bitmapIndexes =>
    .string (dictionary.clone Text.clone) (encodedValues.clone id) (bitmapIndexes.clone p.cloneBitmap)
  | stringMulti dictionary ordinals rowOffsets bitmapIndexes =>
    .stringMulti (dictionary.clone Text.clone) (ordinals.clone id) (rowOffsets.clone id) (bitmapIndexes.clone p.cloneBitmap)
  | complex bytes => .complex (bytes.clone id)
  | complexTheta sketches => .complexTheta (sketches.clone p.cloneThetaSketch)
  | complexHyperUnique sketches => .complexHyperUnique (sketches.clone p.cloneHyperUnique)

/-- The table of a copy has as many buckets. -/
def Columns.clone (columns : Columns B T H) : Columns B T H where
  entries := columns.entries.map fun e => (e.1.clone, e.2.clone p)
  capacity := columns.capacity
  nodup := by
    rw [List.map_map]
    exact columns.nodup

def SegmentData.clone (segment : SegmentData B T H) : SegmentData B T H :=
  { segment with
    dimensions := segment.dimensions.clone Text.clone
    metrics := segment.metrics.clone Text.clone
    columns := segment.columns.clone p }

/-- `is_sorted` of a `__time` column of longs. -/
def derivedTimeSorted (segment : SegmentData B T H) : Bool :=
  match segment.columns.get "__time" with
  | some (.long times) => decide (times.items.Pairwise (· ≤ ·))
  | _ => false

/-! ## Estimates -/

def stringVecBytes (v : Vec Text) : UInt64 := sumFrom (allocationBytes p.sizeOfString v.capacity) (·.capacity) v.items

/-- The slots and strings of a dictionary. -/
def dictionaryHeapBytes (values : Vec Text) : UInt64 := stringVecBytes p values

def ColumnData.bytes : ColumnData B T H → UInt64
  | long values => allocationBytes 8 values.capacity
  | longNullable values nulls => saturatingAdd (allocationBytes 8 values.capacity) (p.bitmapHeapBytes nulls)
  | float values => allocationBytes 4 values.capacity
  | double values => allocationBytes 8 values.capacity
  | string dictionary encodedValues bitmapIndexes =>
    let start := saturatingAdd
      (saturatingAdd (allocationBytes 4 encodedValues.capacity) (allocationBytes p.sizeOfBitmap bitmapIndexes.capacity))
      (dictionaryHeapBytes p dictionary)
    sumFrom start p.bitmapHeapBytes bitmapIndexes.items
  | stringMulti dictionary ordinals rowOffsets bitmapIndexes =>
    let start := saturatingAdd
      (saturatingAdd (saturatingAdd (allocationBytes 4 ordinals.capacity) (allocationBytes 4 rowOffsets.capacity))
        (allocationBytes p.sizeOfBitmap bitmapIndexes.capacity))
      (dictionaryHeapBytes p dictionary)
    sumFrom start p.bitmapHeapBytes bitmapIndexes.items
  | complex bytes => allocationBytes 1 bytes.capacity
  | complexTheta sketches =>
    sumFrom (allocationBytes p.sizeOfThetaSketch sketches.capacity) (fun s => saturatingMul (p.retained s) 16) sketches.items
  | complexHyperUnique sketches =>
    saturatingAdd (allocationBytes p.sizeOfHyperUnique sketches.capacity) (saturatingMul (.ofNat sketches.items.length) 2048)

def estimateSegmentBytes (segment : SegmentData B T H) : UInt64 :=
  let bytes := saturatingAdd p.sizeOfSegmentData (hashTableBytes p.sizeOfColumnSlot segment.columns.capacity)
  let bytes := saturatingAdd bytes (stringVecBytes p segment.dimensions)
  let bytes := saturatingAdd bytes (stringVecBytes p segment.metrics)
  segment.columns.entries.foldl (fun bytes e => saturatingAdd (saturatingAdd bytes e.1.capacity) (e.2.bytes p)) bytes

/-! ## The cached schema -/

inductive ColumnType where
  | long
  | float
  | double
  | string
  | complex (name : Text)

def columnTypeOf : ColumnData B T H → ColumnType
  | .long _ | .longNullable _ _ => .long
  | .float _ => .float
  | .double _ => .double
  | .string _ _ _ | .stringMulti _ _ _ _ => .string
  | .complex _ => .complex (.ofStr "opaque")
  | .complexTheta _ => .complex (.ofStr "thetaSketch")
  | .complexHyperUnique _ => .complex (.ofStr "hyperUnique")

def columnTypeHeapBytes : ColumnType → UInt64
  | .complex name => name.capacity
  | _ => 0

structure CachedSchema where
  hasTime : Bool
  dimensions : Vec (Text × ColumnType)
  metrics : Vec (Text × ColumnType)

/-- The columns of a role with their types; `__time` has a flag of its own. -/
def typedColumns (segment : SegmentData B T H) (names : Vec Text) (absent : ColumnType) : Vec (Text × ColumnType) :=
  let items := (names.items.filter fun name => name.text ≠ "__time").map fun name =>
    (name.clone, ((segment.columns.get name.text).map columnTypeOf).getD absent)
  ⟨items, p.collected items.length⟩

def CachedSchema.fromSegment (segment : SegmentData B T H) : CachedSchema where
  hasTime := (segment.columns.get "__time").isSome
  dimensions := typedColumns p segment segment.dimensions .string
  metrics := typedColumns p segment segment.metrics .double

def CachedSchema.schemaHeapBytes (schema : CachedSchema) : UInt64 :=
  let typedVecBytes (cols : Vec (Text × ColumnType)) : UInt64 :=
    cols.items.foldl (fun total col => saturatingAdd (saturatingAdd total col.1.capacity) (columnTypeHeapBytes col.2))
      (allocationBytes p.sizeOfTypedColumn cols.capacity)
  saturatingAdd (typedVecBytes schema.dimensions) (typedVecBytes schema.metrics)

/-! ## A copy -/

variable (segment : SegmentData B T H)

/-- The flag weighs nothing. -/
theorem estimateSegmentBytes_timeSorted (sorted : Bool) :
    estimateSegmentBytes p { segment with timeSorted := sorted } = estimateSegmentBytes p segment := rfl

theorem fromSegment_timeSorted (sorted : Bool) :
    CachedSchema.fromSegment p { segment with timeSorted := sorted } = CachedSchema.fromSegment p segment := rfl

variable {p}

theorem columnTypeOf_clone (col : ColumnData B T H) : columnTypeOf (col.clone p) = columnTypeOf col := by
  cases col <;> rfl

theorem get_clone (columns : Columns B T H) (name : String) :
    (columns.clone p).get name = (columns.get name).map (ColumnData.clone p) := by
  unfold Columns.get Columns.clone
  simp only [List.find?_map, Option.map_map]
  rfl

theorem typedColumns_clone (names : Vec Text) (absent : ColumnType) :
    typedColumns p (segment.clone p) (names.clone Text.clone) absent = typedColumns p segment names absent := by
  have htype : ∀ name, (((segment.clone p).columns.get name).map columnTypeOf).getD absent =
      ((segment.columns.get name).map columnTypeOf).getD absent := by
    intro name
    have hget : (segment.clone p).columns.get name = (segment.columns.get name).map (ColumnData.clone p) := get_clone _ _
    rw [hget, Option.map_map]
    congr 2
    funext col
    exact columnTypeOf_clone col
  unfold typedColumns Vec.clone
  simp only [htype, List.filter_map, List.map_map, List.length_map]
  congr 1

/-- A copy has the same schema. -/
theorem fromSegment_clone :
    CachedSchema.fromSegment p (segment.clone p) = CachedSchema.fromSegment p segment := by
  unfold CachedSchema.fromSegment
  have htime : ((segment.clone p).columns.get "__time").isSome = (segment.columns.get "__time").isSome := by
    have hget : (segment.clone p).columns.get "__time" = (segment.columns.get "__time").map (ColumnData.clone p) := get_clone _ _
    rw [hget, Option.isSome_map]
  rw [htime, ← typedColumns_clone segment segment.dimensions, ← typedColumns_clone segment segment.metrics]
  rfl

end

end FerroDruid.Historical
