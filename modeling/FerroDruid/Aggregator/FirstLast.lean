import FerroDruid.Lib.Float32
import FerroDruid.Lib.JsonNumber
import FerroDruid.Lib.Saturating
/-!
# First and last values

The eight aggregators of `first_last.rs`. A row without a timestamp gets a made-up
one, below all so far or above all so far, and the explicit-time path compares it.
-/

namespace FerroDruid.Aggregator

open Lib List

/-! ## Truncation -/

/-- `while end > 0 && !s.is_char_boundary(end) { end -= 1; }` -/
def boundaryAtMost (bs : Bytes) : ℕ → ℕ
  | 0 => 0
  | n + 1 => if isCharBoundary bs (n + 1) then n + 1 else boundaryAtMost bs n

theorem isCharBoundary_boundaryAtMost (bs : Bytes) (n : ℕ) : isCharBoundary bs (boundaryAtMost bs n) = true := by
  induction n with
  | zero => simp [boundaryAtMost, isCharBoundary]
  | succ n ih =>
    unfold boundaryAtMost
    split_ifs with h
    · exact h
    · exact ih

theorem boundaryAtMost_le (bs : Bytes) (n : ℕ) : boundaryAtMost bs n ≤ n := by
  induction n with
  | zero => simp [boundaryAtMost]
  | succ n ih =>
    unfold boundaryAtMost
    split_ifs
    · exact le_rfl
    · omega

def truncateString (s : Utf8) (maxBytes : ℕ) : Utf8 :=
  if s.bytes.length ≤ maxBytes then s
  else ⟨s.bytes.take (boundaryAtMost s.bytes maxBytes), validUtf8_take s.valid (isCharBoundary_boundaryAtMost _ _)⟩

theorem length_truncateString (s : Utf8) (maxBytes : ℕ) : (truncateString s maxBytes).bytes.length ≤ maxBytes := by
  unfold truncateString
  split_ifs with h
  · exact h
  · have := boundaryAtMost_le s.bytes maxBytes
    simp only [length_take]
    omega

theorem truncateString_truncateString (s : Utf8) (maxBytes : ℕ) :
    truncateString (truncateString s maxBytes) maxBytes = truncateString s maxBytes :=
  if_pos (length_truncateString s maxBytes)

/-! ## The types of value -/

/-- The parameters of `define_first_last_numeric!`: `$json_extract` with the cast
to `$ty`, and `$to_json`. A result that is not null reads as the value it shows. -/
structure ValueType (α : Type) where
  extract : Json → Option α
  toJson : α → Json
  extract_toJson : ∀ j v, extract j = some v → toJson v = .null ∨ extract (toJson v) = some v

namespace ValueType

def long : ValueType Int64 where
  extract := Json.asI64
  toJson := .ofI64
  extract_toJson := by
    intro _ v _
    exact .inr (Json.asI64_ofI64 v)

/-- A float that is shown at all reads as itself. -/
theorem asF64_ofF64 (x : F64) : Json.ofF64 x = .null ∨ (Json.ofF64 x).asF64 = some x := by
  unfold Json.ofF64
  split_ifs
  · exact .inr rfl
  · exact .inl rfl

def double : ValueType F64 where
  extract := Json.asF64
  toJson := .ofF64
  extract_toJson := by
    intro _ v _
    exact asF64_ofF64 v

def float : ValueType F64 where
  extract := fun j => j.asF64.map F64.toSingle
  toJson := .ofF64
  extract_toJson := by
    intro j v h
    obtain ⟨x, -, rfl⟩ := Option.map_eq_some_iff.1 h
    apply (asF64_ofF64 x.toSingle).imp_right
    intro hback
    rw [hback, Option.map_some, F64.toSingle_toSingle]

def string (maxBytes : ℕ) : ValueType Utf8 where
  extract := fun j => j.asStr.map (truncateString · maxBytes)
  toJson := .string
  extract_toJson := by
    intro j v h
    obtain ⟨s, -, rfl⟩ := Option.map_eq_some_iff.1 h
    exact .inr (congrArg some (truncateString_truncateString s maxBytes))

end ValueType

/-! ## Numeric aggregators -/

/-- The state of each of the eight. -/
structure TimedValue (α : Type) where
  timestamp : Int64
  value : Option α

variable {α : Type} (t : ValueType α)

def TimedValue.get (a : TimedValue α) : Json :=
  match a.value with
  | some v => t.toJson v
  | none => .null

namespace First

def new : TimedValue α := ⟨Int64.maxValue, none⟩

def aggregateWithTime (a : TimedValue α) (ts : Int64) (value : Option Json) : TimedValue α :=
  match value.bind t.extract with
  | some v => if ts < a.timestamp then ⟨ts, some v⟩ else a
  | none => a

/-- The insertion order, as a decrementing counter. -/
def aggregate (a : TimedValue α) (value : Option Json) : TimedValue α :=
  aggregateWithTime t a (min (saturatingSubI64 a.timestamp 1) (if a.value.isNone then Int64.maxValue else a.timestamp)) value

/-- The other is seen through its result alone. -/
def merge (a : TimedValue α) (other : Json) : TimedValue α :=
  if other = .null then a
  else if a.value.isNone then
    match t.extract other with
    | some v => { a with value := some v }
    | none => a
  else a

end First

namespace Last

def new : TimedValue α := ⟨Int64.minValue, none⟩

def aggregateWithTime (a : TimedValue α) (ts : Int64) (value : Option Json) : TimedValue α :=
  match value.bind t.extract with
  | some v => if a.timestamp ≤ ts then ⟨ts, some v⟩ else a
  | none => a

def aggregate (a : TimedValue α) (value : Option Json) : TimedValue α :=
  aggregateWithTime t a (max (saturatingAddI64 a.timestamp 1) (if a.value.isNone then Int64.minValue else a.timestamp)) value

def merge (a : TimedValue α) (other : Json) : TimedValue α :=
  if other = .null then a
  else
    match t.extract other with
    | some v => { a with value := some v }
    | none => a

end Last

/-! ## String aggregators -/

/-- No timestamp is below the one that stands for none. -/
def StringFirst.aggregate (a : TimedValue α) (value : Option Json) : TimedValue α :=
  First.aggregateWithTime t a (if a.value.isNone then Int64.maxValue else saturatingSubI64 a.timestamp 1) value

def StringLast.aggregate (a : TimedValue α) (value : Option Json) : TimedValue α :=
  Last.aggregateWithTime t a (if a.value.isNone then Int64.minValue else saturatingAddI64 a.timestamp 1) value

/-- `merge` of `StringFirstAggregator`: what is not a string is passed over. -/
def StringFirst.merge (a : TimedValue α) (other : Json) : TimedValue α :=
  match (t.extract other).filter fun _ => a.value.isNone with
  | some v => { a with value := some v }
  | none => a

def StringLast.merge (a : TimedValue α) (other : Json) : TimedValue α :=
  match t.extract other with
  | some v => { a with value := some v }
  | none => a

/-! ## The eight -/

/-- The operations behind `dyn Aggregator`. -/
structure FirstLast (α : Type) where
  type : ValueType α
  new : TimedValue α
  aggregate : TimedValue α → Option Json → TimedValue α
  aggregateWithTime : TimedValue α → Int64 → Option Json → TimedValue α
  merge : TimedValue α → Json → TimedValue α

def numericFirst : FirstLast α := ⟨t, First.new, First.aggregate t, First.aggregateWithTime t, First.merge t⟩

def numericLast : FirstLast α := ⟨t, Last.new, Last.aggregate t, Last.aggregateWithTime t, Last.merge t⟩

def LongFirstAggregator : FirstLast Int64 := numericFirst .long

def LongLastAggregator : FirstLast Int64 := numericLast .long

def DoubleFirstAggregator : FirstLast F64 := numericFirst .double

def DoubleLastAggregator : FirstLast F64 := numericLast .double

def FloatFirstAggregator : FirstLast F64 := numericFirst .float

def FloatLastAggregator : FirstLast F64 := numericLast .float

def StringFirstAggregator (maxBytes : ℕ) : FirstLast Utf8 :=
  let t := ValueType.string maxBytes
  ⟨t, First.new, StringFirst.aggregate t, First.aggregateWithTime t, StringFirst.merge t⟩

def StringLastAggregator (maxBytes : ℕ) : FirstLast Utf8 :=
  let t := ValueType.string maxBytes
  ⟨t, Last.new, StringLast.aggregate t, Last.aggregateWithTime t, StringLast.merge t⟩

inductive FirstLastSpec where
  | longFirst
  | longLast
  | doubleFirst
  | doubleLast
  | floatFirst
  | floatLast
  | stringFirst (maxStringBytes : Option ℕ)
  | stringLast (maxStringBytes : Option ℕ)

namespace FirstLastSpec

abbrev Value : FirstLastSpec → Type
  | longFirst | longLast => Int64
  | doubleFirst | doubleLast | floatFirst | floatLast => F64
  | stringFirst _ | stringLast _ => Utf8

/-- The arms of `create_aggregator`. -/
def createAggregator : (s : FirstLastSpec) → FirstLast s.Value
  | longFirst => LongFirstAggregator
  | longLast => LongLastAggregator
  | doubleFirst => DoubleFirstAggregator
  | doubleLast => DoubleLastAggregator
  | floatFirst => FloatFirstAggregator
  | floatLast => FloatLastAggregator
  | stringFirst maxStringBytes => StringFirstAggregator (maxStringBytes.getD 1024)
  | stringLast maxStringBytes => StringLastAggregator (maxStringBytes.getD 1024)

def isFirst : FirstLastSpec → Bool
  | longFirst | doubleFirst | floatFirst | stringFirst _ => true
  | longLast | doubleLast | floatLast | stringLast _ => false

end FirstLastSpec

/-! ## Rows without timestamps -/

namespace ValueType

/-- The values that are not null and of the type. -/
def accepted (values : List (Option Json)) : List α := values.filterMap fun value => value.bind t.extract

/-- How they are shown. -/
def images (values : List (Option Json)) : List Json := (t.accepted values).map t.toJson

end ValueType

def FirstLast.result (agg : FirstLast α) (values : List (Option Json)) : Json :=
  (values.foldl agg.aggregate agg.new).get agg.type

/-- The result is the wanted value, and null only when there is none. -/
def FirstLast.Returns (agg : FirstLast α) (wanted : List Json → Option Json) (values : List (Option Json)) : Prop :=
  agg.result values = (wanted (agg.type.images values)).getD .null ∧
    (agg.result values = .null ↔ agg.type.accepted values = [])

namespace FirstLastSpec

/-- The purpose: the first value, or the last. -/
def Returns (s : FirstLastSpec) (values : List (Option Json)) : Prop :=
  s.createAggregator.Returns (if s.isFirst then List.head? else List.getLast?) values

/-- The value that a numeric first aggregator ends with, the last that its counter
can still number, looks like the first. -/
def LastLooksFirst (images : List Json) : Prop :=
  images[min images.length (2 ^ 64 - 1) - 1]? = images.head? ∧ images.head? ≠ some .null

/-- The condition on the values for which an aggregator does return its value. -/
def Spares : (s : FirstLastSpec) → List (Option Json) → Prop
  | longFirst, values => LastLooksFirst (ValueType.long.images values)
  | doubleFirst, values => LastLooksFirst (ValueType.double.images values)
  | floatFirst, values => LastLooksFirst (ValueType.float.images values)
  | floatLast, values => (ValueType.float.images values).getLast? ≠ some .null
  | stringFirst maxStringBytes, values => (ValueType.string (maxStringBytes.getD 1024)).accepted values = []
  | longLast, _ | doubleLast, _ | stringLast _, _ => True

end FirstLastSpec

/-! ### What the counters do -/

variable (values : List (Option Json))

theorem ValueType.accepted_concat (value : Option Json) :
    t.accepted (values ++ [value]) = t.accepted values ++ (value.bind t.extract).toList := by
  unfold accepted
  cases h : value.bind t.extract <;> simp [h]

variable (a : TimedValue α)

theorem TimedValue.get_eq : a.get t = (a.value.map t.toJson).getD .null := by
  unfold get
  cases a.value <;> rfl

variable (ts : Int64)

theorem toInt_pred : (saturatingSubI64 ts 1).toInt = max (-2 ^ 63) (ts.toInt - 1) := by
  have := ts.toInt_lt
  rw [saturatingSubI64, toInt_saturate, Int64.toInt_one]
  omega

theorem toInt_succ : (saturatingAddI64 ts 1).toInt = min (ts.toInt + 1) (2 ^ 63 - 1) := by
  have := ts.le_toInt
  rw [saturatingAddI64, toInt_saturate, Int64.toInt_one]
  omega

theorem le_maxValue : ts ≤ Int64.maxValue := by
  have := ts.toInt_lt
  rw [Int64.le_iff_toInt_le, Int64.toInt_maxValue]
  omega

theorem minValue_le : Int64.minValue ≤ ts := by
  have := ts.le_toInt
  rw [Int64.le_iff_toInt_le, Int64.toInt_minValue]
  omega

theorem le_succ : ts ≤ saturatingAddI64 ts 1 := by
  have := ts.toInt_lt
  rw [Int64.le_iff_toInt_le, toInt_succ]
  omega

/-- The bound beside the counter never binds. -/
theorem First.aggregate_eq (value : Option Json) :
    First.aggregate t a value = First.aggregateWithTime t a (saturatingSubI64 a.timestamp 1) value := by
  have hle : saturatingSubI64 a.timestamp 1 ≤ if a.value.isNone then Int64.maxValue else a.timestamp := by
    split_ifs
    · exact le_maxValue _
    · have := a.timestamp.le_toInt
      rw [Int64.le_iff_toInt_le, toInt_pred]
      omega
  have hmin : min (saturatingSubI64 a.timestamp 1) (if a.value.isNone then Int64.maxValue else a.timestamp) = _ := if_pos hle
  rw [First.aggregate, hmin]

/-- A value is kept as long as the counter can go on. -/
theorem First.aggregate_some {value : Option Json} {v : α} (h : value.bind t.extract = some v) :
    First.aggregate t a value = if -2 ^ 63 < a.timestamp.toInt then ⟨saturatingSubI64 a.timestamp 1, some v⟩ else a := by
  have hiff : saturatingSubI64 a.timestamp 1 < a.timestamp ↔ -2 ^ 63 < a.timestamp.toInt := by
    rw [Int64.lt_iff_toInt_lt, toInt_pred]
    omega
  simp only [First.aggregate_eq, First.aggregateWithTime, h, hiff]

theorem First.aggregate_none {value : Option Json} (h : value.bind t.extract = none) :
    First.aggregate t a value = a := by
  simp only [First.aggregate, First.aggregateWithTime, h]

/-- Each value replaces the one before, until the counter is at its end. -/
theorem First.foldl_aggregate :
    (values.foldl (First.aggregate t) First.new).timestamp.toInt = 2 ^ 63 - 1 - min (t.accepted values).length (2 ^ 64 - 1) ∧
      (values.foldl (First.aggregate t) First.new).value =
        (t.accepted values)[min (t.accepted values).length (2 ^ 64 - 1) - 1]? := by
  induction values using List.reverseRecOn with
  | nil => exact ⟨Int64.toInt_maxValue, rfl⟩
  | append_singleton values value ih =>
    obtain ⟨htime, hvalue⟩ := ih
    rw [foldl_append, foldl_cons, foldl_nil, t.accepted_concat]
    generalize values.foldl (First.aggregate t) First.new = a at htime hvalue
    cases h : value.bind t.extract with
    | none =>
      rw [First.aggregate_none t a h, Option.toList_none, append_nil]
      exact ⟨htime, hvalue⟩
    | some v =>
      rw [First.aggregate_some t a h, Option.toList_some, length_append, length_singleton]
      split_ifs with hgo
      · -- the counter can go on, so that the value at the index is the last
        have hshort : (t.accepted values).length + 1 ≤ 2 ^ 64 - 1 := by omega
        constructor
        · rw [toInt_pred]
          omega
        · rw [min_eq_left hshort, Nat.add_sub_cancel, getElem?_concat_length]
      · have hlong : 2 ^ 64 - 1 ≤ (t.accepted values).length := by omega
        constructor
        · omega
        · rw [hvalue, min_eq_right hlong, min_eq_right (by omega), getElem?_append_left (by omega)]

/-- The first value would need a timestamp above all. -/
theorem StringFirst.foldl_aggregate : values.foldl (StringFirst.aggregate t) First.new = First.new := by
  apply foldl_fixed'
  intro value
  cases h : value.bind t.extract <;> simp [StringFirst.aggregate, First.aggregateWithTime, First.new, h, hnot]

/-- A made-up timestamp is never below the one before, whichever way it is made up. -/
theorem Last.foldl_of_stamp {aggregate : TimedValue α → Option Json → TimedValue α} {stamp : TimedValue α → Int64}
    (hagg : ∀ a value, aggregate a value = Last.aggregateWithTime t a (stamp a) value)
    (hstamp : ∀ a : TimedValue α, (a.value = none → a.timestamp = Int64.minValue) → a.timestamp ≤ stamp a)
    (values : List (Option Json)) : (values.foldl aggregate Last.new).value = (t.accepted values).getLast? := by
  suffices h : (values.foldl aggregate Last.new).value = (t.accepted values).getLast? ∧
      ((values.foldl aggregate Last.new).value = none → (values.foldl aggregate Last.new).timestamp = Int64.minValue) from h.1
  induction values using List.reverseRecOn with
  | nil => exact ⟨rfl, fun _ => rfl⟩
  | append_singleton values value ih =>
    rw [foldl_append, foldl_cons, foldl_nil, t.accepted_concat, hagg]
    generalize values.foldl aggregate Last.new = a at ih
    cases h : value.bind t.extract with
    | none => simpa [Last.aggregateWithTime, h] using ih
    | some v => simp [Last.aggregateWithTime, h, hstamp a ih.2]

theorem max_of_le {x y : Int64} (h : y ≤ x) : max x y = x := by
  rw [show max x y = if x ≤ y then y else x from rfl]
  split_ifs with hle
  · exact Int64.le_antisymm h hle
  · rfl

theorem Last.aggregate_eq (value : Option Json) :
    Last.aggregate t a value = Last.aggregateWithTime t a (saturatingAddI64 a.timestamp 1) value := by
  have hle : (if a.value.isNone then Int64.minValue else a.timestamp) ≤ saturatingAddI64 a.timestamp 1 := by
    split_ifs
    · exact minValue_le _
    · exact le_succ _
  have hmax : max (saturatingAddI64 a.timestamp 1) (if a.value.isNone then Int64.minValue else a.timestamp) = _ :=
    max_of_le hle
  rw [Last.aggregate, hmax]

theorem Last.foldl_aggregate :
    (values.foldl (Last.aggregate t) Last.new).value = (t.accepted values).getLast? :=
  Last.foldl_of_stamp t (Last.aggregate_eq t) (fun a _ => le_succ a.timestamp) values

theorem StringLast.foldl_aggregate :
    (values.foldl (StringLast.aggregate t) Last.new).value = (t.accepted values).getLast? := by
  apply Last.foldl_of_stamp t (fun _ _ => rfl)
  intro a hnew
  split_ifs with hnone
  · rw [hnew (Option.isNone_iff_eq_none.1 hnone)]
    exact Int64.le_refl _
  · exact le_succ a.timestamp

/-! ### When the result is the wanted value -/

theorem ValueType.images_eq_nil {values : List (Option Json)} : t.images values = [] ↔ t.accepted values = [] := by
  simp [images]

/-- A result picked from the images is right when the same one is wanted, and is not null. -/
theorem FirstLast.returns_iff {agg : FirstLast α} {wanted : List Json → Option Json} {values : List (Option Json)} {shown : Option Json}
    (hresult : agg.result values = shown.getD .null) (hshown : shown = none ↔ agg.type.accepted values = [])
    (hwanted : wanted (agg.type.images values) = none ↔ agg.type.accepted values = []) :
    agg.Returns wanted values ↔ shown = wanted (agg.type.images values) ∧ wanted (agg.type.images values) ≠ some .null := by
  unfold Returns
  rw [hresult, ← hshown]
  rw [← hshown] at hwanted
  cases shown with
  | none => simp [hwanted.2 rfl]
  | some x =>
    obtain ⟨y, hy⟩ := Option.ne_none_iff_exists'.1 (mt hwanted.1 (Option.some_ne_none x))
    rw [hy]
    constructor
    · rintro ⟨rfl, hnull⟩
      simpa using hnull
    · rintro ⟨hxy, hnull⟩
      cases hxy
      simpa using hnull

theorem numericFirst_result :
    (numericFirst t).result values = ((t.images values)[min (t.images values).length (2 ^ 64 - 1) - 1]?).getD .null := by
  have h := (First.foldl_aggregate t values).2
  rw [FirstLast.result, TimedValue.get_eq]
  simp only [numericFirst, h, ValueType.images, getElem?_map, length_map]

theorem numericFirst_returns_iff :
    (numericFirst t).Returns List.head? values ↔ FirstLastSpec.LastLooksFirst (t.images values) := by
  apply FirstLast.returns_iff (numericFirst_result t values)
  · rw [List.getElem?_eq_none_iff, numericFirst, ← t.images_eq_nil, ← length_eq_zero_iff]
    omega
  · rw [head?_eq_none_iff, numericFirst, t.images_eq_nil]

/-- Both ways to make up timestamps give the last value. -/
theorem FirstLast.last_returns_iff {agg : FirstLast α} {values : List (Option Json)}
    (h : (values.foldl agg.aggregate agg.new).value = (agg.type.accepted values).getLast?) :
    agg.Returns List.getLast? values ↔ (agg.type.images values).getLast? ≠ some .null := by
  have hresult : agg.result values = (agg.type.images values).getLast?.getD .null := by
    rw [result, TimedValue.get_eq, h, ValueType.images, getLast?_map]
  have hnone : (agg.type.images values).getLast? = none ↔ agg.type.accepted values = [] := by
    rw [getLast?_eq_none_iff, agg.type.images_eq_nil]
  rw [returns_iff hresult hnone hnone]
  exact and_iff_right rfl

/-- A long, a double and a string are never shown as null. -/
theorem ValueType.getLast?_images {t : ValueType α} (h : ∀ j v, t.extract j = some v → t.toJson v ≠ .null) (values : List (Option Json)) :
    (t.images values).getLast? ≠ some .null := by
  intro hlast
  obtain ⟨v, hv, hnull⟩ := mem_map.1 (mem_of_getLast? hlast)
  obtain ⟨value, -, hextract⟩ := mem_filterMap.1 hv
  obtain ⟨j, -, hj⟩ := Option.bind_eq_some_iff.1 hextract
  exact h j v hj hnull

theorem ValueType.double_ne_null (j : Json) (x : F64) (h : ValueType.double.extract j = some x) : ValueType.double.toJson x ≠ .null := by
  have hfinite : x.isFinite = true := by
    obtain ⟨n, -, rfl⟩ := Option.map_eq_some_iff.1 ((Json.asF64_eq j).symm.trans h)
    exact n.isFinite_toFloat
  simp [double, Json.ofF64, hfinite]

namespace FirstLastSpec

theorem returns_iff_spares (s : FirstLastSpec) (values : List (Option Json)) : s.Returns values ↔ s.Spares values := by
  cases s with
  | longFirst => exact numericFirst_returns_iff .long values
  | doubleFirst => exact numericFirst_returns_iff .double values
  | floatFirst => exact numericFirst_returns_iff .float values
  | floatLast => exact FirstLast.last_returns_iff (Last.foldl_aggregate .float values)
  | longLast =>
    have hiff := @FirstLast.last_returns_iff _ LongLastAggregator values (Last.foldl_aggregate .long values)
    exact iff_true_intro (hiff.2 (ValueType.getLast?_images nofun values))
  | doubleLast =>
    have hiff := @FirstLast.last_returns_iff _ DoubleLastAggregator values (Last.foldl_aggregate .double values)
    exact iff_true_intro (hiff.2 (ValueType.getLast?_images ValueType.double_ne_null values))
  | stringLast maxStringBytes =>
    have hiff := @FirstLast.last_returns_iff _ (StringLastAggregator (maxStringBytes.getD 1024)) values (StringLast.foldl_aggregate _ values)
    exact iff_true_intro (hiff.2 (ValueType.getLast?_images nofun values))
  | stringFirst maxStringBytes =>
    -- the result is null, so that nothing may be wanted
    have hresult : (StringFirstAggregator (maxStringBytes.getD 1024)).result values = .null := by
      rw [FirstLast.result, StringFirstAggregator, StringFirst.foldl_aggregate]
      rfl
    constructor
    · rintro ⟨-, hnull⟩
      exact hnull.1 hresult
    · intro hnone
      refine ⟨?_, iff_of_true hresult hnone⟩
      have himages := ((ValueType.string (maxStringBytes.getD 1024)).images_eq_nil).2 hnone
      exact hresult.trans (congrArg (fun images : List Json => images.head?.getD .null) himages).symm

/-- Of two longs the second is returned as the first. -/
theorem longFirst_returns_last : ¬longFirst.Returns [some (.ofI64 1), some (.ofI64 2)] := by
  rintro ⟨hresult, -⟩
  revert hresult
  decide

end FirstLastSpec

end FerroDruid.Aggregator
