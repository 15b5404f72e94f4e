import FerroDruid.Aggregator.Integer
import FerroDruid.Lib.FloatText
import FerroDruid.Lib.TreeMap
/-!
# Rows to ingest

The values of JSON rows as `ferrodruid-ingest-batch` reads them: numbers, long
dimensions, and times cut to a granularity. Reading a timestamp and the text of a
JSON value are given, and so is the calendar.
-/

namespace FerroDruid.Ingest

open Lib List

/-- A JSON object; a row that is none has no timestamp and is refused. -/
abbrev Row := HashMap Utf8 Json

inductive DimensionType where
  | string
  | long
  deriving DecidableEq

structure DimensionSchema where
  name : Utf8
  dimType : DimensionType
  deriving DecidableEq

/-- The text under `type`. -/
inductive MetricType where
  | integer (spec : Aggregator.IntegerSpec)
  | other (typ : Utf8)
  deriving DecidableEq

/-- What a metric spec says under `type`, `name` and `fieldName`. -/
structure MetricSpec where
  typ : MetricType
  name : Option Utf8
  fieldName : Option Utf8
  deriving DecidableEq

inductive IngestError where
  | noRows
  | timestamp (row : Row)
  | multiValueRollup (dimension : Utf8)
  | arrayElement (dimension : Utf8)

/-! ## Numbers -/

/-- A number, or text that spells one; nothing that is not finite. -/
def jsonToF64 (v : Json) : Option F64 :=
  (match v with
    | .string s => parseF64 (trim s.bytes)
    | v => v.asF64).filter (·.isFinite)

/-- Truncated, if it is within 64 bits. -/
def f64ToI64 (f : F64) : Option Int64 :=
  if f.isFinite && (F64.ofInt (-2 ^ 63)).le f.trunc && f.trunc.lt (.ofInt (2 ^ 63)) then some f.trunc.toI64 else none

inductive PlainNumeric where
  | value (n : Int64)
  | overflow
  | notPlain

def dot : UInt8 := 0x2E

/-- The text before the first dot, and after it if there is one. -/
def splitDot (t : Bytes) : Bytes × Option Bytes :=
  match t.dropWhile (· ≠ dot) with
  | [] => (t, none)
  | _ :: frac => (t.takeWhile (· ≠ dot), some frac)

def classifyPlainNumeric (t : Bytes) : PlainNumeric :=
  let (intPart, frac) := splitDot t
  let unsigned := if intPart.head? = some 0x2B ∨ intPart.head? = some 0x2D then intPart.tail else intPart
  if (frac.any fun f => !f.all isDigit) || !unsigned.all isDigit then .notPlain
  else if unsigned = [] then
    match frac with
    | some (_ :: _) => .value 0
    | _ => .notPlain
  else
    match parseLong intPart with
    | some v => .value v
    | none => .overflow

def jsonToI64 : Json → Option Int64
  | .number n =>
    match Json.asI64 (.number n) with
    | some i => some i
    | none => (Json.asF64 (.number n)).bind f64ToI64
  | .string s =>
    match classifyPlainNumeric (trim s.bytes) with
    | .value v => some v
    | .overflow => none
    | .notPlain => (parseF64 (trim s.bytes)).bind f64ToI64
  | _ => none

/-! ## Times -/

/-- A day and a time of day of `chrono`. -/
structure NaiveDateTime where
  year : ℤ
  month : ℕ
  day : ℕ
  hour : ℕ
  minute : ℕ
  second : ℕ
  nanos : ℕ

/-- Conversions of `chrono`; a time out of its range becomes the epoch. -/
structure Chrono where
  fromTimestampMillis : Int64 → NaiveDateTime
  timestampMillis : NaiveDateTime → Int64

/-- Down to the start of the granularity; an unknown one cuts nothing. -/
def truncateTimestamp (chrono : Chrono) (ts : Int64) (granularity : String) : Int64 :=
  let naive := chrono.fromTimestampMillis ts
  chrono.timestampMillis <|
    match granularity with
    | "second" => { naive with nanos := 0 }
    | "minute" => { naive with second := 0, nanos := 0 }
    | "hour" => { naive with minute := 0, second := 0, nanos := 0 }
    | "day" => { naive with hour := 0, minute := 0, second := 0, nanos := 0 }
    | "month" => { naive with day := 1, hour := 0, minute := 0, second := 0, nanos := 0 }
    | "year" => { naive with month := 1, day := 1, hour := 0, minute := 0, second := 0, nanos := 0 }
    | _ => naive

/-! ## Integers and their texts -/

variable (n : Int64)

theorem parseLong_decimalInt : parseLong (decimalInt n.toInt) = some n := by
  have hlow := n.le_toInt
  have hhigh := n.toInt_lt
  obtain ⟨d, ds, hdecimal⟩ := exists_cons_of_ne_nil (decimal_ne_nil n.toInt.natAbs)
  have hd : isDigit d = true := isDigit_of_mem_decimal (hdecimal ▸ mem_cons_self ..)
  have hsign : d ≠ 0x2D ∧ d ≠ 0x2B := ⟨fun h => absurd (h ▸ hd) (by decide), fun h => absurd (h ▸ hd) (by decide)⟩
  have hall : (decimal n.toInt.natAbs).all isDigit = true := all_eq_true.2 fun b => isDigit_of_mem_decimal
  have hvalue := foldl_decimal n.toInt.natAbs
  by_cases hneg : n.toInt < 0
  · have hv : (-2 : ℤ) ^ 63 ≤ -(n.toInt.natAbs : ℤ) ∧ -(n.toInt.natAbs : ℤ) < 2 ^ 63 := by omega
    have hn : -(n.toInt.natAbs : ℤ) = n.toInt := by omega
    simp only [parseLong, decimalInt, if_pos hneg, head?_cons, true_or, if_true, tail_cons, Ne, decimal_ne_nil, not_false_eq_true, hall,
      and_self, hvalue, hn, hlow, hhigh, Int64.ofInt_toInt]
  · have hn : (n.toInt.natAbs : ℤ) = n.toInt := by omega
    have hhead : (decimal n.toInt.natAbs).head? = some d := by rw [hdecimal]; rfl
    simp only [parseLong, decimalInt, if_neg hneg, hhead, Option.some.injEq, hsign.1, hsign.2, or_self, if_false, Ne, decimal_ne_nil,
      not_false_eq_true, hall, and_self, if_true, hvalue, hn, hlow, hhigh, Int64.ofInt_toInt]

theorem trim_decimalInt (n : ℤ) : trim (decimalInt n) = decimalInt n := by
  obtain ⟨b, hlast⟩ : ∃ b, (decimal n.natAbs).getLast? = some b := by
    obtain ⟨d, ds, hdecimal⟩ := exists_cons_of_ne_nil (decimal_ne_nil n.natAbs)
    exact ⟨_, by rw [hdecimal]; rfl⟩
  have hb : isDigit b = true := isDigit_of_mem_decimal (mem_of_getLast? hlast)
  have hspace : ∀ c cs, isDigit c = true ∨ c = 0x2D → ¬ StartsWithSpace (c :: cs) := by
    have hfirst : ∀ w ∈ whitespace, w.head?.any (fun c => isDigit c || c = 0x2D) = false ∧ w ≠ [] := by decide
    rintro c cs hc ⟨w, hw, t, ht⟩
    obtain ⟨hw', hne⟩ := hfirst w hw
    obtain ⟨x, xs, rfl⟩ := exists_cons_of_ne_nil hne
    obtain rfl := (List.cons.inj ht).1
    rcases hc with hc | hc <;> simp [hc] at hw'
  have hstart : trimStart (decimalInt n) = decimalInt n := by
    refine trimStart_of_not_space ?_
    unfold decimalInt
    split_ifs
    · exact hspace _ _ (.inr rfl)
    · obtain ⟨d, ds, hdecimal⟩ := exists_cons_of_ne_nil (decimal_ne_nil n.natAbs)
      rw [hdecimal]
      exact hspace _ _ (.inl (isDigit_of_mem_decimal (hdecimal ▸ mem_cons_self ..)))
  rw [trim, hstart]
  refine trimEnd_of_digit (b := b) ?_ hb
  unfold decimalInt
  split_ifs
  · rw [getLast?_cons, hlast]
    rfl
  · exact hlast

theorem classifyPlainNumeric_decimalInt : classifyPlainNumeric (decimalInt n.toInt) = .value n := by
  have hdigits : ∀ b ∈ decimal n.toInt.natAbs, isDigit b = true := fun b => isDigit_of_mem_decimal
  have hdot : ∀ b ∈ decimalInt n.toInt, b ≠ dot := by
    intro b hb heq
    unfold decimalInt at hb
    split_ifs at hb
    · rcases mem_cons.1 hb with rfl | hb
      · revert heq
        decide
      · exact absurd (hdigits b hb) (by rw [heq]; decide)
    · exact absurd (hdigits b hb) (by rw [heq]; decide)
  have hsplit : splitDot (decimalInt n.toInt) = (decimalInt n.toInt, none) := by
    have hdrop : (decimalInt n.toInt).dropWhile (· ≠ dot) = [] := dropWhile_eq_nil_iff.2 fun b hb => decide_eq_true (hdot b hb)
    rw [splitDot, hdrop]
  have hunsigned : (if (decimalInt n.toInt).head? = some 0x2B ∨ (decimalInt n.toInt).head? = some 0x2D then (decimalInt n.toInt).tail
      else decimalInt n.toInt) = decimal n.toInt.natAbs := by
    unfold decimalInt
    obtain ⟨d, ds, hdecimal⟩ := exists_cons_of_ne_nil (decimal_ne_nil n.toInt.natAbs)
    have hd : isDigit d = true := hdigits d (hdecimal ▸ mem_cons_self ..)
    split_ifs with hneg hsign hsign
    · rfl
    · simp at hsign
    · rw [hdecimal] at hsign
      rcases hsign with hsign | hsign <;> exact absurd hd (by rw [Option.some.inj hsign]; decide)
    · rfl
  have hall : (decimal n.toInt.natAbs).all isDigit = true := all_eq_true.2 hdigits
  simp only [classifyPlainNumeric, hsplit, hunsigned, Option.any_none, hall, Bool.not_true, Bool.or_self, Bool.false_eq_true, if_false,
    decimal_ne_nil, parseLong_decimalInt]

theorem valid_decimalInt (n : ℤ) : validUtf8 (decimalInt n) = true := by
  refine validUtf8_of_ascii fun b hb => ?_
  have hdigit : ∀ c, isDigit c = true → c < 0x80 := UInt8.forall_of_fin (by decide +kernel)
  unfold decimalInt at hb
  split_ifs at hb
  · rcases mem_cons.1 hb with rfl | hb
    · decide
    · exact hdigit b (isDigit_of_mem_decimal hb)
  · exact hdigit b (isDigit_of_mem_decimal hb)

/-- `i64::to_string`. -/
def longText (n : Int64) : Utf8 := ⟨decimalInt n.toInt, valid_decimalInt _⟩

/-- A long reads back from its text. -/
@[simp] theorem jsonToI64_longText : jsonToI64 (.string (longText n)) = some n := by
  simp only [jsonToI64, longText, trim_decimalInt, classifyPlainNumeric_decimalInt]

end FerroDruid.Ingest
