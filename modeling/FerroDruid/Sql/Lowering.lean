import FerroDruid.Lib.LastWrite
import FerroDruid.Sql.Having
/-!
# The aggregates of a SELECT list

The names and specs that `ferrodruid-sql/src/planner.rs` gives to the projections of an
aggregating SELECT: visible aggregations, and post-aggregations over hidden ones.
-/

namespace FerroDruid.Sql.Grouped

open Lib
open Aggregator (decimalText)

/-! ## SELECT lists -/

inductive Func where
  | count | sum | min | max | avg
  deriving DecidableEq

/-- The argument of an aggregate; `star` is none. -/
inductive Argument where
  | star
  | integer (n : Int64)
  | column (name : Utf8)
  | other
  deriving DecidableEq

inductive Constant where
  | integer (n : Int64)
  | float (x : F64)
  deriving DecidableEq

inductive SelectExpr where
  | column (name : Utf8)
  | constant (value : Constant)
  | aggregate (func : Func) (arg : Argument) (distinct : Bool)
  | binaryOp (left : SelectExpr) (op : BinaryOperator) (right : SelectExpr)
  deriving DecidableEq

structure Projection where
  expr : SelectExpr
  label : Option Utf8

/-! ## Tables -/

inductive ColumnType where
  | string | long | float | double
  | complex (name : Utf8)
  deriving DecidableEq

structure DataSourceSchema where
  dimensions : List (Utf8 × ColumnType)
  metrics : List (Utf8 × ColumnType)
  timeColumn : Utf8

def DataSourceSchema.columnType (schema : DataSourceSchema) (name : Utf8) : Option ColumnType :=
  if name = schema.timeColumn then some .long else ((schema.dimensions ++ schema.metrics).find? fun column => column.1 = name).map Prod.snd

/-- What decides how a query is planned besides its text. -/
structure Planner where
  schema : DataSourceSchema
  legacyNullMode : Bool
  exactCountDistinct : Bool

/-! ## Specs -/

/-- An aggregation without its name. `countNotNull` is a count behind a not-null filter,
and so is `cardinality`. -/
inductive Aggregate where
  | count
  | countNotNull (field : Utf8)
  | cardinality (field : Utf8)
  | hllSketchBuild (field : Utf8)
  | doubleSum (field : Utf8)
  | doubleMin (field : Utf8)
  | doubleMax (field : Utf8)
  | longMin (field : Utf8)
  | longMax (field : Utf8)
  deriving DecidableEq

structure AggregatorSpec where
  name : Utf8
  aggregate : Aggregate
  deriving DecidableEq

inductive PostAggregatorSpec where
  | fieldAccess (name fieldName : Utf8)
  | constant (name : Utf8) (value : Constant)
  | arithmetic (name : Utf8) (fn : BinaryOperator) (left right : PostAggregatorSpec)
  /-- an expression: the quotient of two fields -/
  | quotient (name dividend divisor : Utf8)
  | hllSketchEstimate (name : Utf8) (field : PostAggregatorSpec)
  deriving DecidableEq

def PostAggregatorSpec.name : PostAggregatorSpec → Utf8
  | fieldAccess name _ | constant name _ | arithmetic name _ _ _ | quotient name _ _ | hllSketchEstimate name _ => name

/-! ## Names -/

def numbered (tag : Bytes) (htag : ∀ b ∈ tag, b < 0x80) (n : ℕ) : Utf8 := .ofAscii tag htag ++ decimalText n

theorem agg_ascii : ∀ b ∈ ascii "agg_", b < 0x80 := by decide

theorem avg_ascii : ∀ b ∈ ascii "avg_", b < 0x80 := by decide

theorem count_distinct_ascii : ∀ b ∈ ascii "count_distinct_", b < 0x80 := by decide

def named (tag : Bytes) (htag : ∀ b ∈ tag, b < 0x80) (field : Utf8) : Utf8 := .ofAscii tag htag ++ field

inductive Tag where
  | agg | const | avg | cd | card | expr | avgSum | avgCount | hll
  deriving DecidableEq

def Tag.text : Tag → Bytes
  | agg => ascii "$agg_"
  | const => ascii "$const_"
  | avg => ascii "$avg_"
  | cd => ascii "$cd_"
  | card => ascii "$card_"
  | expr => ascii "$expr_"
  | avgSum => ascii "$avg_sum_"
  | avgCount => ascii "$avg_count_"
  | hll => ascii "$hll_"

theorem Tag.text_ascii (tag : Tag) : ∀ b ∈ tag.text, b < 0x80 := by cases tag <;> decide

def hiddenName (tag : Tag) (n : ℕ) : Utf8 := numbered tag.text tag.text_ascii n

/-- What a projection without a label is called. -/
def aggName (index : ℕ) : Utf8 := numbered (ascii "agg_") agg_ascii index

def exprName (n : ℕ) : Utf8 := numbered (ascii "expr_") (by decide) n

def avgName (field : Utf8) : Utf8 := named (ascii "avg_") avg_ascii field

def countDistinctName (field : Utf8) : Utf8 := named (ascii "count_distinct_") count_distinct_ascii field

/-! ## Visible aggregations -/

inductive PlanError where
  | distinctAggregate (func : Func)
  | countArgument
  | countDistinctArgument
  | avgDistinct
  | avgArgument
  | constant (value : Constant)
  | operator (op : BinaryOperator)
  | operand
  | ungroupedProjection (projection : Projection)
  | groupByExpression
  | groupByPosition (n : ℤ)
  | groupByProjection (n : ℕ)
  | orderByPosition (n : ℤ)
  | orderByKey (name : Utf8)
  | orderByAggregate
  | orderByExpression
  | orderByTimeFloor
  | groupingSet (dim : Utf8)
  | filter (error : DruidError)
  | having (error : HavingError)

def isTimeColumn (field : Utf8) : Option DataSourceSchema → Bool
  | some schema => field = schema.timeColumn
  | none => field = ⟨ascii "__time", Eq.refl true⟩

def isLongColumn (field : Utf8) : Option DataSourceSchema → Bool
  | some schema => (schema.dimensions ++ schema.metrics).any fun column => column.1 = field && column.2 = .long
  | none => false

variable (planner : Planner)

/-- The extremes of the time column are integers, and in the legacy null mode those of
every integer column. -/
def isLongExtreme (schema : Option DataSourceSchema) (field : Utf8) : Bool :=
  isTimeColumn field schema || (planner.legacyNullMode && isLongColumn field schema)

/-- `try_as_aggregation` without the name. -/
def lowerAggregate (schema : Option DataSourceSchema) (func : Func) (arg : Argument) (distinct : Bool) : Except PlanError (Option Aggregate) :=
  if distinct then
    match func, arg with
    | .count, .column col => .ok (if planner.exactCountDistinct then some (.cardinality col) else none)
    | func, _ => .error (.distinctAggregate func)
  else
    match func, arg with
    | .count, .star | .count, .integer _ => .ok (some .count)
    | .count, .column col => .ok (some (.countNotNull col))
    | .count, .other => .error .countArgument
    | .sum, .column field => .ok (some (.doubleSum field))
    | .min, .column field => .ok (some (if isLongExtreme planner schema field then .longMin field else .doubleMin field))
    | .max, .column field => .ok (some (if isLongExtreme planner schema field then .longMax field else .doubleMax field))
    | _, _ => .ok none

/-- The name of a visible aggregation: its label, or one by its place or its column. -/
def aggregateName (label : Option Utf8) (index : ℕ) (arg : Argument) (distinct : Bool) : Utf8 :=
  match distinct, arg with
  | true, .column col => label.getD (countDistinctName col)
  | _, _ => label.getD (aggName index)

def tryAsAggregation (schema : Option DataSourceSchema) (label : Option Utf8) (index : ℕ) :
    SelectExpr → Except PlanError (Option AggregatorSpec)
  | .aggregate func arg distinct => do
    let aggregate ← lowerAggregate planner schema func arg distinct
    .ok (aggregate.map fun aggregate => ⟨aggregateName label index arg distinct, aggregate⟩)
  | _ => .ok none

/-! ## Post-aggregations -/

structure AggProjections where
  specs : List AggregatorSpec := []
  hiddenSpecs : List AggregatorSpec := []
  postAggs : List PostAggregatorSpec := []
  /-- in the order of the SELECT list -/
  outputNames : List Utf8 := []
  /-- the columns of averages, with the names of these -/
  avgSources : List (Utf8 × Utf8) := []
  hiddenSeq : ℕ := 0

namespace AggProjections

variable (aggs : AggProjections)

def hasAggregation : Bool := !aggs.specs.isEmpty || !aggs.postAggs.isEmpty

def nativeAggregations : List AggregatorSpec := aggs.specs ++ aggs.hiddenSpecs

def freshHiddenName (tag : Tag) : Utf8 × AggProjections := (hiddenName tag aggs.hiddenSeq, { aggs with hiddenSeq := aggs.hiddenSeq + 1 })

def freshOutputName : Utf8 × AggProjections := (exprName aggs.hiddenSeq, { aggs with hiddenSeq := aggs.hiddenSeq + 1 })

def pushHidden (spec : AggregatorSpec) : AggProjections := { aggs with hiddenSpecs := aggs.hiddenSpecs ++ [spec] }

def lowerAvg (field outputName : Utf8) : PostAggregatorSpec × AggProjections :=
  let sumName := hiddenName .avgSum aggs.hiddenSeq
  let countName := hiddenName .avgCount aggs.hiddenSeq
  let aggs := { aggs with
    hiddenSeq := aggs.hiddenSeq + 1
    hiddenSpecs := aggs.hiddenSpecs ++ [⟨sumName, .doubleSum field⟩, ⟨countName, .countNotNull field⟩] }
  if planner.legacyNullMode then (.arithmetic outputName .divide (.fieldAccess sumName sumName) (.fieldAccess countName countName), aggs)
  else (.quotient outputName sumName countName, aggs)

def lowerCountDistinct (field outputName : Utf8) : PostAggregatorSpec × AggProjections :=
  let sketchName := hiddenName .hll aggs.hiddenSeq
  (.hllSketchEstimate outputName (.fieldAccess sketchName sketchName),
    { aggs with hiddenSeq := aggs.hiddenSeq + 1, hiddenSpecs := aggs.hiddenSpecs ++ [⟨sketchName, .hllSketchBuild field⟩] })

end AggProjections

def isArithmetic : BinaryOperator → Bool
  | .plus | .minus | .multiply | .divide => true
  | _ => false

def containsAggregate : SelectExpr → Bool
  | .aggregate _ _ _ => true
  | .binaryOp left _ right => containsAggregate left || containsAggregate right
  | _ => false

/-- One operand of arithmetic over aggregates, with the hidden aggregations it needs. -/
def lowerPostAggOperand : SelectExpr → AggProjections → Except PlanError (PostAggregatorSpec × AggProjections)
  | .constant (.integer n), aggs =>
    let (name, aggs) := aggs.freshHiddenName .const
    .ok (.constant name (.integer n), aggs)
  | .constant (.float x), aggs =>
    if x.isFinite then
      let (name, aggs) := aggs.freshHiddenName .const
      .ok (.constant name (.float x), aggs)
    else .error (.constant (.float x))
  | .aggregate .avg arg distinct, aggs =>
    if distinct then .error .avgDistinct
    else
      match arg with
      | .column field =>
        let (name, aggs) := aggs.freshHiddenName .avg
        .ok (aggs.lowerAvg planner field name)
      | _ => .error .avgArgument
  | .aggregate .count arg true, aggs =>
    match arg with
    | .column field =>
      if planner.exactCountDistinct then
        let (name, aggs) := aggs.freshHiddenName .card
        .ok (.fieldAccess name name, aggs.pushHidden ⟨name, .cardinality field⟩)
      else
        let (name, aggs) := aggs.freshHiddenName .cd
        .ok (aggs.lowerCountDistinct field name)
    | _ => .error .countDistinctArgument
  | .aggregate func arg distinct, aggs => do
    let (name, aggs) := aggs.freshHiddenName .agg
    match ← tryAsAggregation planner (some planner.schema) (some name) 0 (.aggregate func arg distinct) with
    | some spec => .ok (.fieldAccess name name, aggs.pushHidden spec)
    | none => .error .operand
  | .binaryOp left op right, aggs => do
    if isArithmetic op then
      let (lhs, aggs) ← lowerPostAggOperand left aggs
      let (rhs, aggs) ← lowerPostAggOperand right aggs
      let (name, aggs) := aggs.freshHiddenName .expr
      .ok (.arithmetic name op lhs rhs, aggs)
    else .error (.operator op)
  | .column _, _ => .error .operand

def tryAsPostAggregation (label : Option Utf8) : SelectExpr → AggProjections → Except PlanError (Option PostAggregatorSpec × AggProjections)
  | .aggregate .avg arg distinct, aggs =>
    if distinct then .error .avgDistinct
    else
      match arg with
      | .column field =>
        let name := label.getD (avgName field)
        let (post, aggs) := aggs.lowerAvg planner field name
        .ok (some post, { aggs with avgSources := aggs.avgSources ++ [(field, name)] })
      | _ => .error .avgArgument
  | .aggregate .count arg true, aggs =>
    match arg with
    | .column field =>
      let (post, aggs) := aggs.lowerCountDistinct field (label.getD (countDistinctName field))
      .ok (some post, aggs)
    | _ => .error .countDistinctArgument
  | .binaryOp left op right, aggs => do
    if containsAggregate left || containsAggregate right then
      if isArithmetic op then
        let (lhs, aggs) ← lowerPostAggOperand planner left aggs
        let (rhs, aggs) ← lowerPostAggOperand planner right aggs
        let (name, aggs) := match label with
          | some name => (name, aggs)
          | none => aggs.freshOutputName
        .ok (some (.arithmetic name op lhs rhs), aggs)
      else .error (.operator op)
    else .ok (none, aggs)
  | _, aggs => .ok (none, aggs)

end FerroDruid.Sql.Grouped
