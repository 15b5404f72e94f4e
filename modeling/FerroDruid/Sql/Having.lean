import FerroDruid.Aggregator.CardinalityKey
import FerroDruid.Lib.FloatOrder
import FerroDruid.Query.TopN
import FerroDruid.Sql.Planner
/-!
# HAVING

`convert_having` of `ferrodruid-sql/src/planner.rs`, and `HavingSpec::matches` of
`ferrodruid-query/src/groupby.rs` on the event of a group.

A comparison finds its aggregate by a name that is made up again from the
expression, and a bound that may be reached is moved by `f64::EPSILON`.
-/

namespace FerroDruid.Sql

open Lib Aggregator
open Query (numericAggCell)

/-! ## Having specs -/

inductive HavingSpec where
  | greaterThan (aggregation : Utf8) (value : F64)
  | lessThan (aggregation : Utf8) (value : F64)
  | equalTo (aggregation : Utf8) (value : F64)
  | and (havingSpecs : List HavingSpec)
  | or (havingSpecs : List HavingSpec)
  | not (havingSpec : HavingSpec)

/-- The fields of a group's event. -/
abbrev GroupEvent : Type := Utf8 → Option Json

/-- `row.get(aggregation).and_then(numeric_agg_cell)`. -/
def GroupEvent.number (row : GroupEvent) (aggregation : Utf8) : Option F64 := (row aggregation).bind numericAggCell

namespace HavingSpec

mutual

def isMatch (row : GroupEvent) : HavingSpec → Bool
  | greaterThan aggregation value => (row.number aggregation).any fun v => value.lt v
  | lessThan aggregation value => (row.number aggregation).any fun v => v.lt value
  | equalTo aggregation value => (row.number aggregation).any fun v => (v.sub value).abs.lt (.epsilon false)
  | and havingSpecs => allMatch row havingSpecs
  | or havingSpecs => anyMatch row havingSpecs
  | not havingSpec => !isMatch row havingSpec

def allMatch (row : GroupEvent) : List HavingSpec → Bool
  | [] => true
  | spec :: specs => isMatch row spec && allMatch row specs

def anyMatch (row : GroupEvent) : List HavingSpec → Bool
  | [] => false
  | spec :: specs => isMatch row spec || anyMatch row specs

end

end HavingSpec

/-! ## Lowering -/

inductive HavingError where
  | unsupportedOperator (op : BinaryOperator)
  | unsupportedExpression
  | aggregateArgument
  | unsupportedAggregate
  | expectedAggregate
  | threshold
  deriving DecidableEq

/-- ASCII bytes are one to a scan. -/
theorem next_of_ascii (q : Owing) {b c : UInt8} (hb : b < 0x80) (hc : c < 0x80) : q.next b = q.next c := by
  have hlow := q.continues.1
  have hnot : ∀ d : UInt8, d < 0x80 → ¬(q.low ≤ d ∧ d ≤ q.high) := fun d hd h => absurd (UInt8.le_trans hlow h.1) (UInt8.not_le.2 hd)
  unfold Owing.next Owing.lead
  simp only [hb, hc, hnot b hb, hnot c hc, if_true, if_false]

theorem lowerAscii_cases (b : UInt8) : lowerAscii b = b ∨ (lowerAscii b < 0x80 ∧ b < 0x80) :=
  UInt8.forall_of_fin (P := fun b => lowerAscii b = b ∨ (lowerAscii b < 0x80 ∧ b < 0x80)) (by decide +kernel) b

theorem scan_lowerAscii (q : Owing) (bs : Bytes) : q.scan (bs.map lowerAscii) = q.scan bs := by
  induction bs generalizing q with
  | nil => rfl
  | cons b bs ih =>
    have hnext : q.next (lowerAscii b) = q.next b := by
      rcases lowerAscii_cases b with heq | ⟨hlower, hb⟩
      · rw [heq]
      · exact next_of_ascii q hlower hb
    rw [List.map_cons, Owing.scan, Owing.scan, hnext]
    simp only [ih]

/-- `str::to_lowercase` of the name of a function, which is ASCII. -/
def toLowercase (s : Utf8) : Utf8 :=
  ⟨s.bytes.map lowerAscii, by rw [validUtf8, scan_lowerAscii, ← validUtf8, s.valid]⟩

def underscore : Utf8 := .ofAscii (ascii "_") (by decide)

def havingAggName : SqlExpr → Except HavingError Utf8
  | .column name => .ok name
  | .aggregate func arg _ =>
    match arg with
    | none => if func.bytes = ascii "COUNT" then .ok (.ofAscii (ascii "cnt") (by decide)) else .error .unsupportedAggregate
    | some (.column col) => .ok (toLowercase func ++ underscore ++ col)
    | some _ => .error .aggregateArgument
  | _ => .error .expectedAggregate

def havingThreshold : SqlExpr → Except HavingError F64
  | .literal (.integer i) => .ok (.ofInt i.toInt)
  | _ => .error .threshold

def convertHaving : SqlExpr → Except HavingError HavingSpec
  | .binaryOp left op right => do
    let aggName ← havingAggName left
    let threshold ← havingThreshold right
    match op with
    | .gt => .ok (.greaterThan aggName threshold)
    | .gtEq => .ok (.greaterThan aggName (threshold.sub (.epsilon false)))
    | .lt => .ok (.lessThan aggName threshold)
    | .ltEq => .ok (.lessThan aggName (threshold.add (.epsilon false)))
    | .eq => .ok (.equalTo aggName threshold)
    | op => .error (.unsupportedOperator op)
  | .and l r => do
    let lh ← convertHaving l
    let rh ← convertHaving r
    .ok (.and [lh, rh])
  | .or l r => do
    let lh ← convertHaving l
    let rh ← convertHaving r
    .ok (.or [lh, rh])
  | _ => .error .unsupportedExpression

end FerroDruid.Sql
