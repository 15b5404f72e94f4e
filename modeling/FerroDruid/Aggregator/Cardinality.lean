import FerroDruid.Aggregator.CardinalityKey
import FerroDruid.Lib.Saturating
/-!
# The exact cardinality aggregator

`CardinalityAggregator` and `CardinalityState` in
`ferrodruid-aggregator/src/cardinality.rs`, `merge_cardinality` in `lib.rs` next
to it, and the finalization in `ferrodruid-query/src/helpers.rs` and
`ferrodruid-broker/src/lib.rs`. An exact set is held up to a cap; past it, and
on any envelope that does not check, the result is flagged and no count is
given.
-/

namespace FerroDruid.Aggregator

open Lib

def maxCardinalitySetSize : ℕ := 1000000

/-- Nothing but a test lowers it. -/
def exactCardinalitySetCap : ℕ := maxCardinalitySetSize

def truncMarker : Utf8 := ⟨[0xE2, 0x80, 0xA6] ++ ascii "trunc", by decide +kernel⟩

def maxWireValueBytes : ℕ := maxCardinalityKeyBytes + truncMarker.bytes.length

def cardinalityStateTag : Utf8 := ⟨ascii "cardinality_state", by decide +kernel⟩

def cardinalityExactSetLimitKind : String :=
  "cardinality.maxExactSetSize (exact COUNT(DISTINCT)/cardinality exceeded the exact distinct-value set limit " ++
  "and the result would silently under-count; use APPROX_COUNT_DISTINCT / an approximate HLL aggregator for " ++
  "unbounded-cardinality columns)"

def cardinalityCrossShardMergeLimitKind : String :=
  "cardinality.crossShardExactMerge (exact COUNT(DISTINCT)/cardinality partial results could not be union-merged " ++
  "exactly across segments/shards — either the exact distinct-value union exceeded the exact set limit, or a partial " ++
  "carried a bare count with no key set — so the merged count would be an inexact saturating-add upper bound; use " ++
  "APPROX_COUNT_DISTINCT / an approximate HLL aggregator for distinct counts beyond the exact set limit)"

def cardinalityMalformedStateKind : String :=
  "cardinality.malformedState (a partial result tagged as an exact COUNT(DISTINCT)/cardinality state envelope " ++
  "was malformed or violated the envelope invariants, so the merged count could not be verified exact; the query " ++
  "fails closed rather than trusting a peer-supplied count)"

/-- `DruidError::ResourceLimit`. -/
structure ResourceLimit where
  kind : String
  limit : ℕ
  observed : ℕ
  deriving DecidableEq

/-! ## The state on the wire -/

structure CardinalityState where
  typ : Utf8
  values : List Utf8
  saturated : Bool
  count : UInt64

structure MalformedCardinalityState where
  reason : String
  deriving DecidableEq

def typeName : Utf8 := ⟨ascii "@type", by decide +kernel⟩

def valuesName : Utf8 := ⟨ascii "values", by decide +kernel⟩

def saturatedName : Utf8 := ⟨ascii "saturated", by decide +kernel⟩

def countName : Utf8 := ⟨ascii "count", Eq.refl true⟩

/-- The set of the values read so far, or what is wrong with the next. -/
def distinctValues : HashSet Utf8 → List Json → Except MalformedCardinalityState (HashSet Utf8)
  | distinct, [] => .ok distinct
  | distinct, v :: vs =>
    match v.asStr with
    | none => .error ⟨"`values` entry is not a string"⟩
    | some s =>
      if maxWireValueBytes < s.bytes.length then .error ⟨"`values` entry exceeds the per-key wire bound"⟩
      else if s ∈ distinct.items then .error ⟨"`values` entries are not distinct"⟩
      else distinctValues (distinct.insert s) vs

def validateTaggedObj (obj : List (Utf8 × Json)) (setCap : ℕ) : Except MalformedCardinalityState (Bool × UInt64) :=
  match (Json.get obj saturatedName).bind Json.asBool with
  | none => .error ⟨"`saturated` missing or not a bool"⟩
  | some saturated =>
    match (Json.get obj countName).bind Json.asU64 with
    | none => .error ⟨"`count` missing or not a u64"⟩
    | some count =>
      match (Json.get obj valuesName).bind Json.asArray with
      | none => .error ⟨"`values` missing or not an array"⟩
      | some values =>
        if setCap < values.length then .error ⟨"`values` exceeds the exact-set cap"⟩
        else if saturated then
          if values ≠ [] then .error ⟨"saturated state must ship no values"⟩ else .ok (true, .ofNat count)
        else do
          let distinct ← distinctValues .empty values
          if count ≠ distinct.len then .error ⟨"`count` does not match the distinct value set"⟩ else .ok (false, .ofNat count)

namespace CardinalityState

def saturatedWithCount (count : UInt64) : CardinalityState := ⟨cardinalityStateTag, [], true, count⟩

def toJson (state : CardinalityState) : Json :=
  .object [(typeName, .string state.typ), (valuesName, .array (state.values.map .string)),
    (saturatedName, .bool state.saturated), (countName, .ofU64 state.count)]

/-- The derived `Deserialize`. -/
def deserialize (obj : List (Utf8 × Json)) : Option CardinalityState := do
  let typ ← (Json.get obj typeName).bind Json.asStr
  let items ← (Json.get obj valuesName).bind Json.asArray
  let values ← items.mapM Json.asStr
  let saturated ← (Json.get obj saturatedName).bind Json.asBool
  let count ← (Json.get obj countName).bind Json.asU64
  some ⟨typ, values, saturated, .ofNat count⟩

def fromJson : Json → Except MalformedCardinalityState (Option CardinalityState)
  | .object obj =>
    if (Json.get obj typeName).bind Json.asStr = some cardinalityStateTag then do
      let _ ← validateTaggedObj obj maxCardinalitySetSize
      match deserialize obj with
      | some state => .ok (some state)
      | none => .error ⟨"tagged envelope failed to deserialize"⟩
    else .ok none
  | _ => .ok none

def peekJson : Json → Except MalformedCardinalityState (Option (Bool × UInt64))
  | .object obj =>
    if (Json.get obj typeName).bind Json.asStr = some cardinalityStateTag then
      (validateTaggedObj obj maxCardinalitySetSize).map some
    else .ok none
  | _ => .ok none

/-- The set with more values in it, or its size once it is past the cap. -/
def unionInto (cap : ℕ) : HashSet Utf8 → List Utf8 → Except ℕ (HashSet Utf8)
  | merged, [] => .ok merged
  | merged, v :: vs =>
    if cap < (merged.insert v).len then .error (merged.insert v).len else unionInto cap (merged.insert v) vs

/-- The flag goes before the empty side: what a saturated side holds says
nothing. -/
def unionWithCap (a b : CardinalityState) (cap : ℕ) : CardinalityState :=
  if a.saturated || b.saturated then saturatedWithCount (saturatingAdd a.count b.count)
  else if b.count = 0 ∧ b.values = [] then a
  else if a.count = 0 ∧ a.values = [] then b
  else
    match unionInto cap .empty (a.values ++ b.values) with
    | .error count => saturatedWithCount (.ofNat count)
    | .ok merged => ⟨cardinalityStateTag, merged.items, false, .ofNat merged.len⟩

def union (a b : CardinalityState) : CardinalityState := unionWithCap a b exactCardinalitySetCap

def isExactEmpty (state : CardinalityState) : Bool := !state.saturated && state.count = 0 && state.values = []

end CardinalityState

/-! ## The aggregator -/

structure CardinalityAggregator where
  seen : HashSet Utf8
  byRow : Bool
  fields : List Utf8
  rowParts : List Utf8
  saturated : Bool
  cap : ℕ

namespace CardinalityAggregator

def withFields (byRow : Bool) (fields : List Utf8) : CardinalityAggregator :=
  ⟨.empty, byRow, fields, [], false, exactCardinalitySetCap⟩

def tryInsert (agg : CardinalityAggregator) (key : Utf8) : CardinalityAggregator :=
  if key ∈ agg.seen.items then agg
  else if agg.cap ≤ agg.seen.len then { agg with saturated := true }
  else { agg with seen := agg.seen.insert key }

section

variable (sha : Bytes → Digest) (text : Json → Utf8)

def aggregateFieldAt (agg : CardinalityAggregator) (fieldIdx : ℕ) (value : Option Json) : CardinalityAggregator :=
  if agg.byRow then { agg with rowParts := agg.rowParts ++ [valueToKey sha text value] }
  else agg.tryInsert (taggedKey sha fieldIdx (valueToKey sha text value))

def finishRow (agg : CardinalityAggregator) : CardinalityAggregator :=
  if agg.byRow ∧ agg.rowParts ≠ [] then
    { agg.tryInsert (clipToKeyCap sha (composite agg.rowParts)) with rowParts := [] }
  else agg

def aggregateRowValues (agg : CardinalityAggregator) (values : List (Option Json)) : CardinalityAggregator :=
  let agg := values.zipIdx.foldl (fun agg cell => agg.aggregateFieldAt sha text (fieldIndex cell.2) cell.1) agg
  if agg.byRow then agg.finishRow sha else agg

end

def intoState (agg : CardinalityAggregator) : CardinalityState :=
  if agg.saturated then .saturatedWithCount (.ofNat agg.seen.len)
  else ⟨cardinalityStateTag, agg.seen.items, false, .ofNat agg.seen.len⟩

def fromStateWithCap (state : CardinalityState) (cap : ℕ) : CardinalityAggregator :=
  let loaded := state.values.foldl (fun (acc : HashSet Utf8 × Bool) v =>
    if cap ≤ acc.1.len then (if v ∈ acc.1.items then acc else (acc.1, true)) else (acc.1.insert v, acc.2))
    (HashSet.empty, state.saturated)
  -- a count that is not the size of the set is not believed
  let saturated := if ¬ loaded.2 ∧ state.count.toNat ≠ loaded.1.len then true else loaded.2
  ⟨loaded.1, false, [], [], saturated, cap⟩

def fromState (state : CardinalityState) : CardinalityAggregator := fromStateWithCap state exactCardinalitySetCap

def get (agg : CardinalityAggregator) : Json := .ofU64 (.ofNat agg.seen.len)

def saturation (agg : CardinalityAggregator) : Option ResourceLimit :=
  if agg.saturated then some ⟨cardinalityExactSetLimitKind, agg.cap, agg.seen.len⟩ else none

/-- With another aggregator of its kind. -/
def merge (agg other : CardinalityAggregator) : CardinalityAggregator :=
  let agg := other.seen.items.foldl tryInsert agg
  if other.saturated then { agg with saturated := true } else agg

end CardinalityAggregator

/-! ## Merging on the wire -/

inductive Side where
  | state (state : CardinalityState)
  | count (n : UInt64)
  | poison

def classify (v : Json) : Side :=
  match CardinalityState.fromJson v with
  | .ok (some state) => .state state
  | .ok none =>
    match v.asU64 with
    | some n => .count (.ofNat n)
    | none => .poison
  | .error _ => .poison

def mergeCardinality (dst src : Json) : Json :=
  match classify dst, classify src with
  | .state d, .state s => (d.union s).toJson
  | .state d, .count n =>
    if n = 0 then d.toJson
    else if d.isExactEmpty then src
    else (d.union (.saturatedWithCount n)).toJson
  | .count n, .state s =>
    if n = 0 then s.toJson
    else if s.isExactEmpty then dst
    else (CardinalityState.union (.saturatedWithCount n) s).toJson
  | .count d, .count s =>
    if d = 0 then src
    else if s = 0 then dst
    else (CardinalityState.saturatedWithCount (saturatingAdd d s)).toJson
  | .poison, .poison => (CardinalityState.saturatedWithCount 0).toJson
  | .poison, .state t | .state t, .poison => (CardinalityState.saturatedWithCount t.count).toJson
  | .poison, .count n | .count n, .poison => (CardinalityState.saturatedWithCount n).toJson

/-! ## The final answer -/

def finalizeAggValue (agg : CardinalityAggregator) : Except ResourceLimit Json :=
  match agg.saturation with
  | some sat => .error sat
  | none => .ok agg.get

/-- What `finalize_cardinality_map` makes of one output. -/
def finalizeCardinality (value : Json) : Except ResourceLimit Json :=
  match CardinalityState.peekJson value with
  | .error _ => .error ⟨cardinalityMalformedStateKind, exactCardinalitySetCap, 0⟩
  | .ok none =>
    if value.asU64 = none then .error ⟨cardinalityMalformedStateKind, exactCardinalitySetCap, 0⟩ else .ok value
  | .ok (some (saturated, count)) =>
    if saturated then .error ⟨cardinalityCrossShardMergeLimitKind, exactCardinalitySetCap, count.toNat⟩
    else .ok (.ofU64 count)

end FerroDruid.Aggregator
