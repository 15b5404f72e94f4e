import FerroDruid.Lib.Json
/-!
# Aggregators over longs

`CountAggregator`, `LongSumAggregator`, `LongMinAggregator` and
`LongMaxAggregator` of `ferrodruid-aggregator`, and the merging of their JSON
results in `merge_json_by_spec`. `legacy` is the process-wide null mode.
-/

namespace FerroDruid.Aggregator

open Lib

/-! ## Count -/

structure CountAggregator where
  count : Int64

namespace CountAggregator

def new : CountAggregator := ⟨0⟩

/-- Every row counts, whatever its value. -/
def aggregate (a : CountAggregator) (_value : Option Json) : CountAggregator := ⟨a.count + 1⟩

def get (a : CountAggregator) : Json := .ofI64 a.count

end CountAggregator

/-! ## Sum -/

/-- An integer as it is, a float truncated. -/
def jsonAsI64Lossy (v : Json) : Option Int64 :=
  match v.asI64 with
  | some i => some i
  | none =>
    match v.asU64 with
    | some u => some (Int64.ofNat u)
    | none =>
      match v.asF64 with
      | some f => if f.isFinite then some f.trunc.toI64 else none
      | none => none

structure LongSumAggregator where
  sum : Int64
  seen : Bool

namespace LongSumAggregator

def new : LongSumAggregator := ⟨0, false⟩

def aggregate (a : LongSumAggregator) (value : Option Json) : LongSumAggregator :=
  match value.bind jsonAsI64Lossy with
  | some v => ⟨a.sum + v, true⟩
  | none => a

def get (legacy : Bool) (a : LongSumAggregator) : Json :=
  if a.seen then .ofI64 a.sum else if legacy then .ofI64 0 else .null

end LongSumAggregator

/-! ## Minimum and maximum -/

/-- The instances of `define_minmax_aggregator!` over longs: the first value, and
when a value replaces another. -/
structure MinMax where
  init : Int64
  replaces : Int64 → Int64 → Bool

def longMin : MinMax := ⟨Int64.maxValue, fun a b => a < b⟩

def longMax : MinMax := ⟨Int64.minValue, fun a b => b < a⟩

structure MinMaxAggregator where
  value : Int64
  seen : Bool

namespace MinMaxAggregator

def new (m : MinMax) : MinMaxAggregator := ⟨m.init, false⟩

def aggregate (m : MinMax) (a : MinMaxAggregator) (value : Option Json) : MinMaxAggregator :=
  match value.bind Json.asI64 with
  | some v => ⟨if !a.seen || m.replaces v a.value then v else a.value, true⟩
  | none => a

def get (m : MinMax) (legacy : Bool) (a : MinMaxAggregator) : Json :=
  if a.seen then .ofI64 a.value else if legacy then .ofI64 m.init else .null

end MinMaxAggregator

/-! ## Merging results -/

def mergeSum (dst src : Json) : Json :=
  match dst.asF64, src.asF64 with
  | some d, some s =>
    let sum := d.add s
    if (dst.isI64 || dst.isU64) && (src.isI64 || src.isU64) && sum.beq sum.trunc then .ofI64 sum.toI64 else .ofF64 sum
  | none, some _ => src
  | _, _ => dst

/-- What the legacy merge compares: integers stay integers. -/
inductive MinMaxOperand where
  | int (n : Int64)
  | uint (n : ℕ)
  | float (x : F64)

namespace MinMaxOperand

def classify (v : Json) : Option MinMaxOperand :=
  match v.asI64 with
  | some i => some (int i)
  | none =>
    match v.asU64 with
    | some u => some (uint u)
    | none => v.asF64.map float

def toF64 : MinMaxOperand → F64
  | int n => .ofInt n.toInt
  | uint n => .ofInt n
  | float x => x

/-- Numbers that cannot be compared count as equal. -/
def cmpExact : MinMaxOperand → MinMaxOperand → Ordering
  | int a, int b => compare a b
  | uint a, uint b => compare a b
  | int _, uint _ => .lt
  | uint _, int _ => .gt
  | a, b => if a.toF64.lt b.toF64 then .lt else if b.toF64.lt a.toF64 then .gt else .eq

end MinMaxOperand

/-- `merge_min` and `merge_max`: `src` wins over `dst` when it is strictly on the
wanted side, in the legacy mode as integers and otherwise as floats. -/
def mergeExtremum (wanted : Ordering) (legacy : Bool) (dst src : Json) : Json :=
  if legacy then
    match MinMaxOperand.classify dst, MinMaxOperand.classify src with
    | some d, some s => if s.cmpExact d = wanted then src else dst
    | none, some _ => src
    | _, _ => dst
  else
    match dst.asF64, src.asF64 with
    | some d, some s => if (if wanted = .lt then s.lt d else d.lt s) then src else dst
    | none, some _ => src
    | _, _ => dst

def mergeMin : Bool → Json → Json → Json := mergeExtremum .lt

def mergeMax : Bool → Json → Json → Json := mergeExtremum .gt

/-- The variants of `AggregatorSpec` over longs. -/
inductive IntegerSpec where
  | count
  | longSum
  | longMin
  | longMax
  deriving DecidableEq

def mergeJsonBySpec (legacy : Bool) : IntegerSpec → Json → Json → Json
  | .count, dst, src => mergeSum dst src
  | .longSum, dst, src => mergeSum dst src
  | .longMin, dst, src => mergeMin legacy dst src
  | .longMax, dst, src => mergeMax legacy dst src

/-- The result of one aggregator fed all the rows. -/
def run (legacy : Bool) (spec : IntegerSpec) (rows : List (Option Json)) : Json :=
  match spec with
  | .count => (rows.foldl CountAggregator.aggregate .new).get
  | .longSum => (rows.foldl LongSumAggregator.aggregate .new).get legacy
  | .longMin => (rows.foldl (MinMaxAggregator.aggregate longMin) (.new longMin)).get longMin legacy
  | .longMax => (rows.foldl (MinMaxAggregator.aggregate longMax) (.new longMax)).get longMax legacy

end FerroDruid.Aggregator
