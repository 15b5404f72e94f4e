import FerroDruid.Lib.FloatText
import FerroDruid.Query.Segment
/-!
# Keys of groups

`GroupKey` of `ferrodruid-query/src/dim_spec.rs`, what a dimension spec makes of
a cell, and `explode_dim_value` of `groupby.rs`. Extraction functions, regular
expressions, number parsers other than those of 64-bit floats and the text of a
value are parameters.
-/

namespace FerroDruid.Query

open Lib

inductive GroupKey where
  | long (n : Int64)
  | double (x : F64)
  | bool (b : Bool)
  | string (s : Utf8)
  | null
  deriving DecidableEq

/-- `OrderedFloat` takes zeros of both signs for one. -/
def orderedFloat (x : F64) : F64 := if x = .zero true then .zero false else x

def GroupKey.ofF64 (x : F64) : GroupKey := .double (orderedFloat x)

namespace GroupKey

def toJson : GroupKey → Json
  | long n => .ofI64 n
  | double x => .ofF64 x
  | bool b => .bool b
  | string s => .string s
  | null => .null

/-- `as_sort_key`, as bytes. The text of a float is a parameter. -/
def asSortKey (displayF64 : F64 → Bytes) : GroupKey → Bytes
  | long n => decimalInt n.toInt
  | double x => displayF64 x
  | bool b => ascii (if b then "true" else "false")
  | string s => s.bytes
  | null => []

end GroupKey

structure DimRuntime where
  legacy : Bool
  /-- `apply_extraction_fn` -/
  extract : ExtractionFunction → Utf8 → Option Utf8
  /-- `is_match` of a pattern, on what `bound_input` leaves of a text. -/
  isMatch : Utf8 → Utf8 → Bool
  /-- `Value::to_string` -/
  display : Json → Utf8
  parseDruidLong : Utf8 → Option Int64
  parseF32 : Utf8 → Option F64
  /-- `as f32 as f64` -/
  toF32 : F64 → F64
  longToF32 : Int64 → F64

variable (runtime : DimRuntime)

def jsonToGroupKey : Json → GroupKey
  | .null => .null
  | .string s => if s.bytes = [] ∧ runtime.legacy = true then .null else .string s
  | .bool b => .bool b
  | .number n =>
    match (Json.number n).asI64, (Json.number n).asF64 with
    | some i, _ => .long i
    | none, some x => .ofF64 x
    | none, none => .string (runtime.display (.number n))
  | other => .string (runtime.display other)

def coerced (key : GroupKey) : ColumnType → GroupKey
  | .string | .complex _ => key
  | .long =>
    match key with
    | .long n => .long n
    | .null => .null
    | .double x => .long x.toI64
    | .bool b => .long (if b then 1 else 0)
    | .string s => ((runtime.parseDruidLong s).map GroupKey.long).getD .null
  | .double =>
    match key with
    | .double x => .double x
    | .null => .null
    | .long n => .ofF64 (.ofInt n.toInt)
    | .bool b => .ofF64 (.ofInt (if b then 1 else 0))
    | .string s => ((parseF64 s.bytes).map GroupKey.ofF64).getD .null
  | .float =>
    match key with
    | .null => .null
    | .long n => .ofF64 (runtime.longToF32 n)
    | .double x => .ofF64 (runtime.toF32 x)
    | .bool b => .ofF64 (.ofInt (if b then 1 else 0))
    | .string s => ((runtime.parseF32 s).map GroupKey.ofF64).getD .null

/-- In the legacy mode a numeric null is the default. -/
def coerceGroupKeyToOutputType (key : GroupKey) (outputType : ColumnType) : GroupKey :=
  match coerced runtime key outputType with
  | .null =>
    if runtime.legacy then
      match outputType with
      | .long => .long 0
      | .double | .float => .ofF64 (.zero false)
      | .string | .complex _ => .null
    else .null
  | key => key

def jsonValueToString : Json → Utf8
  | .string s => s
  | .null => ⟨[], Eq.refl true⟩
  | other => runtime.display other

namespace DimensionSpec

/-- `apply_compiled`: nothing if a filter rejects the value. -/
def apply : DimensionSpec → Utf8 → Option Utf8
  | default _ _ _, raw => some raw
  | extraction _ _ extractionFn, raw => runtime.extract extractionFn raw
  | listFiltered delegate values isWhitelist, raw => do
    let transformed ← apply delegate raw
    if decide (transformed ∈ values) = isWhitelist then some transformed else none
  | regexFiltered delegate pattern, raw => do
    let transformed ← apply delegate raw
    if runtime.isMatch pattern transformed then some transformed else none
  | prefixFiltered delegate start, raw => do
    let transformed ← apply delegate raw
    if start.bytes <+: transformed.bytes then some transformed else none

def applyTyped (dim : DimensionSpec) (value : Json) : Option GroupKey :=
  match dim with
  | default _ _ outputType => some (coerceGroupKeyToOutputType runtime (jsonToGroupKey runtime value) outputType)
  | _ => (dim.apply runtime (jsonValueToString runtime value)).map GroupKey.string

end DimensionSpec

/-- The keys of the elements of an array, or of the value itself. -/
def explodeDimValue (dim : DimensionSpec) : Json → List GroupKey
  | .array [] => [.null]
  | .array elems => elems.filterMap (dim.applyTyped runtime)
  | scalar => (dim.applyTyped runtime scalar).toList

/-- A row that passes intervals and filter. -/
structure PassingRow where
  bucketKey : ℤ
  rowIdx : ℕ
  row : JsonMap

/-! ## Null -/

def ColumnType.isNumeric : ColumnType → Bool
  | long | float | double => true
  | string | complex _ => false

/-- Null passes the spec as it is: there is no filter and no extraction, and in
the legacy mode no number to be had. -/
def DimensionSpec.keepsNull (legacy : Bool) : DimensionSpec → Bool
  | default _ _ outputType => !(legacy && outputType.isNumeric)
  | extraction .. | listFiltered .. | regexFiltered .. | prefixFiltered .. => false

theorem applyTyped_null_iff (dim : DimensionSpec) : dim.applyTyped runtime .null = some .null ↔ dim.keepsNull runtime.legacy = true := by
  cases dim with
  | default dimension outputName outputType =>
    cases hlegacy : runtime.legacy <;> cases outputType <;>
      simp [DimensionSpec.applyTyped, DimensionSpec.keepsNull, ColumnType.isNumeric, coerceGroupKeyToOutputType, coerced, jsonToGroupKey,
        hlegacy, GroupKey.ofF64]
  | extraction | listFiltered | regexFiltered | prefixFiltered =>
    simp [DimensionSpec.applyTyped, DimensionSpec.keepsNull]

end FerroDruid.Query
