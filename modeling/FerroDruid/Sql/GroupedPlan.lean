import FerroDruid.Sql.Lowering
/-!
# Planning an aggregating SELECT

`plan_select` of `ferrodruid-sql/src/planner.rs` for a SELECT list of columns, aggregates
and arithmetic over them, from one table: a timeseries over everything, a topN or a
groupBy. Column types are left out where only the wire format reads them.
-/

namespace FerroDruid.Sql.Grouped

open Lib

/-! ## Queries -/

inductive GroupKey where
  | column (name : Utf8)
  | position (n : ℕ)
  | integer (n : Int64)
  /-- `TIME_FLOOR`, or the shifted week -/
  | timeGrain
  | other

inductive OrderExpr where
  | column (name : Utf8)
  | position (n : ℕ)
  | integer (n : Int64)
  | aggregate (func : Func) (arg : Argument) (distinct : Bool)
  | other

structure OrderBy where
  expr : OrderExpr
  asc : Bool

structure Select where
  projections : List Projection
  filter : Option SqlExpr
  groupBy : List GroupKey
  groupingSets : Option (List (List Utf8))
  having : Option SqlExpr
  orderBy : List OrderBy
  limit : Option ℕ

/-- A native dimension, and the name its values are output under. -/
structure DimensionSpec where
  dimension : Utf8
  outputName : Utf8
  deriving DecidableEq

structure OrderByColumnSpec where
  dimension : Utf8
  ascending : Bool
  numeric : Bool

structure LimitSpec where
  limit : Option ℕ
  columns : List OrderByColumnSpec

structure TopNMetricSpec where
  metric : Utf8
  inverted : Bool

inductive NativeQuery where
  | timeseries
  | topN (dimension : DimensionSpec) (threshold : ℕ) (metric : TopNMetricSpec)
  | groupBy (dimensions : List DimensionSpec) (subtotalsSpec : Option (List (List Utf8))) (having : Option HavingSpec)
    (limitSpec : Option LimitSpec)

structure PlannedQuery where
  native : NativeQuery
  filter : Option FilterSpec
  aggregations : List AggregatorSpec
  postAggregations : List PostAggregatorSpec
  outputColumns : List Utf8

def PlannedQuery.dimensions (planned : PlannedQuery) : List DimensionSpec :=
  match planned.native with
  | .timeseries => []
  | .topN dimension _ _ => [dimension]
  | .groupBy dimensions _ _ _ => dimensions

/-! ## The SELECT list -/

inductive SelectOutputItem where
  | dimension (column output : Utf8)
  | aggregate (name : Utf8)
  deriving DecidableEq

/-- What the projections are scanned into. -/
structure Scanned where
  aggs : AggProjections := {}
  dimensionExprs : List Projection := []
  selectItems : List SelectOutputItem := []

def unsupportedProjection : Utf8 := .ofAscii (ascii "$unsupported_projection") (by decide)

/-- A projection that is no aggregate: an expression that is no column has its label for
a column. -/
def dimensionItem (projection : Projection) : SelectOutputItem :=
  match projection.expr with
  | .column name => .dimension name (projection.label.getD name)
  | _ =>
    let name := projection.label.getD unsupportedProjection
    .dimension name name

section

variable (planner : Planner)

def scanProjection (scanned : Scanned) (projection : Projection) : Except PlanError Scanned := do
  let aggs := scanned.aggs
  match ← tryAsAggregation planner (some planner.schema) projection.label aggs.specs.length projection.expr with
  | some spec =>
    .ok { scanned with
      aggs := { aggs with specs := aggs.specs ++ [spec], outputNames := aggs.outputNames ++ [spec.name] }
      selectItems := scanned.selectItems ++ [.aggregate spec.name] }
  | none =>
    match ← tryAsPostAggregation planner projection.label projection.expr aggs with
    | (some post, aggs) =>
      .ok { scanned with
        aggs := { aggs with postAggs := aggs.postAggs ++ [post], outputNames := aggs.outputNames ++ [post.name] }
        selectItems := scanned.selectItems ++ [.aggregate post.name] }
    | (none, aggs) =>
      .ok { aggs := aggs, dimensionExprs := scanned.dimensionExprs ++ [projection], selectItems := scanned.selectItems ++ [dimensionItem projection] }

def scanProjections (projections : List Projection) : Except PlanError Scanned := projections.foldlM (scanProjection planner) {}

end

/-! ## Grouping keys -/

/-- A projection by its place, from one on. -/
def resolveGroupByPosition (projections : List Projection) (n : ℕ) : Except PlanError Utf8 :=
  if n = 0 then .error (.groupByPosition 0)
  else
    match projections[n - 1]? with
    | none => .error (.groupByPosition n)
    | some projection =>
      match projection.expr with
      | .column name => .ok (projection.label.getD name)
      | _ => .error (.groupByProjection n)

/-- The name that a key groups by; the time grain is none. -/
def groupByName (projections : List Projection) : GroupKey → Except PlanError (Option Utf8)
  | .column name => .ok (some name)
  | .position n => (resolveGroupByPosition projections n).map some
  | .integer n => if n.toInt < 0 then .error (.groupByPosition n.toInt) else (resolveGroupByPosition projections n.toInt.toNat).map some
  | .timeGrain => .ok none
  | .other => .error .groupByExpression

def extractGroupByDims (select : Select) : Except PlanError (List Utf8) := do
  let names ← select.groupBy.mapM (groupByName select.projections)
  .ok (names.filterMap id)

def isGroupingKey (groupByDims : List Utf8) (projection : Projection) : Bool :=
  (match projection.expr with
    | .column name => decide (name ∈ groupByDims)
    | _ => false) ||
    projection.label.any fun label => decide (label ∈ groupByDims)

def ensureProjectionsGrouped (groupByDims : List Utf8) : List Projection → Except PlanError Unit
  | [] => .ok ()
  | projection :: projections =>
    if isGroupingKey groupByDims projection then ensureProjectionsGrouped groupByDims projections else .error (.ungroupedProjection projection)

/-- The column and the output name of the first dimension of the SELECT list that has the
name for either, or the name for both. -/
def resolveDimBinding (selectItems : List SelectOutputItem) (name : Utf8) : Utf8 × Utf8 :=
  (selectItems.findSome? fun
    | .dimension column output => if column = name ∨ output = name then some (column, output) else none
    | .aggregate _ => none).getD (name, name)

/-- The output names that the SELECT list has for a column. -/
def outputsOf (selectItems : List SelectOutputItem) (column : Utf8) : List Utf8 :=
  selectItems.filterMap fun
    | .dimension c output => if c = column then some output else none
    | .aggregate _ => none

/-- One dimension for each output name: those of the keys, each followed by the further
names of its column. -/
def groupDimensions (selectItems : List SelectOutputItem) (bindings : List (Utf8 × Utf8)) : List DimensionSpec :=
  bindings.foldl (fun dimensions binding =>
    (binding.2 :: (outputsOf selectItems binding.1).filter (· ≠ binding.2)).foldl (fun dimensions output =>
      if dimensions.any (fun d => d.outputName = output) then dimensions else dimensions ++ [⟨binding.1, output⟩]) dimensions) []

/-! ## Ordering -/

section

variable (planner : Planner) (aggs : AggProjections)

/-- The visible aggregation that an ordering aggregate is, whatever their names. -/
def orderAggregate (func : Func) (arg : Argument) (distinct : Bool) : Except PlanError (Option AggregatorSpec) := do
  match ← lowerAggregate planner none func arg distinct with
  | some aggregate => .ok (aggs.specs.find? fun spec => spec.aggregate = aggregate)
  | none => .error .orderByExpression

def avgOutput (func : Func) (arg : Argument) (distinct : Bool) : Option Utf8 :=
  match func, arg, distinct with
  | .avg, .column column, false => (aggs.avgSources.find? fun source => source.1 = column).map Prod.snd
  | _, _, _ => none

/-- The metric of a topN, if the order names one. -/
def orderExprToName : OrderExpr → Option Utf8
  | .column name => if name ∈ aggs.outputNames then some name else none
  | .aggregate func arg distinct =>
    match avgOutput aggs func arg distinct with
    | some output => some output
    | none =>
      if distinct then none
      else
        match orderAggregate planner aggs func arg distinct with
        | .ok spec => spec.map AggregatorSpec.name
        | .error _ => none
  | _ => none

def resolveOrderOrdinal (outputNames : List Utf8) (n : ℕ) : Except PlanError Utf8 :=
  if n = 0 then .error (.orderByPosition 0)
  else
    match outputNames[n - 1]? with
    | some name => .ok name
    | none => .error (.orderByPosition n)

/-- The output column that a groupBy is ordered by. -/
def resolveGroupOrderKey (outputNames : List Utf8) (dimensionExprs : List Projection) (bindings : List (Utf8 × Utf8)) :
    OrderExpr → Except PlanError Utf8
  | .column name =>
    if name ∈ outputNames then .ok name
    else
      match bindings.find? fun binding => binding.1 = name with
      | some binding => .ok binding.2
      | none =>
        match dimensionExprs.find? fun projection => projection.label = some name with
        | some ⟨.column column, _⟩ =>
          match bindings.find? fun binding => binding.1 = column with
          | some binding => .ok binding.2
          | none => .error (.orderByKey name)
        | _ => .error (.orderByKey name)
  | .position n => resolveOrderOrdinal outputNames n
  | .integer n => if n.toInt < 0 then .error (.orderByPosition n.toInt) else resolveOrderOrdinal outputNames n.toInt.toNat
  | .aggregate func arg distinct =>
    match avgOutput aggs func arg distinct with
    | some output => .ok output
    | none => do
      match ← orderAggregate planner aggs func arg distinct with
      | some spec => .ok spec.name
      | none => .error .orderByAggregate
  | .other => .error .orderByExpression

/-- What an unaliased `TIME_FLOOR` is called where orders are resolved. -/
def unaliasedTimeKey : Utf8 := .ofAscii (ascii "$unaliased_time_floor") (by decide)

def isNumericColumn (column : Utf8) : Bool :=
  match planner.schema.columnType column with
  | some .long | some .float | some .double => true
  | _ => false

def orderByColumn (outputNames : List Utf8) (dimensionExprs : List Projection) (bindings : List (Utf8 × Utf8)) (order : OrderBy) :
    Except PlanError OrderByColumnSpec := do
  let name ← resolveGroupOrderKey planner aggs outputNames dimensionExprs bindings order.expr
  if name = unaliasedTimeKey then .error .orderByTimeFloor
  else
    let column := ((bindings.find? fun binding => binding.2 = name).map Prod.fst).getD name
    .ok ⟨name, order.asc, decide (name ∈ aggs.outputNames) || isNumericColumn planner column⟩

end

/-! ## Plans -/

def convertOptional {α β ε : Type} (convert : α → Except ε β) (wrap : ε → PlanError) : Option α → Except PlanError (Option β)
  | none => .ok none
  | some a => ((convert a).map some).mapError wrap

def SelectOutputItem.output : SelectOutputItem → Utf8
  | dimension _ output => output
  | aggregate name => name

def planTimeseriesAll (filter : Option FilterSpec) (aggs : AggProjections) : PlannedQuery where
  native := .timeseries
  filter := filter
  aggregations := aggs.nativeAggregations
  postAggregations := aggs.postAggs
  outputColumns := aggs.outputNames

section

variable (planner : Planner)

/-- A topN has one dimension, under one name. -/
def tryPlanTopn (select : Select) (filter : Option FilterSpec) (scanned : Scanned) (dimName : Utf8) : Option PlannedQuery := do
  let threshold ← select.limit
  let firstOrder ← select.orderBy.head?
  let metricName ← orderExprToName planner scanned.aggs firstOrder.expr
  let (dimColumn, dimOutput) := resolveDimBinding scanned.selectItems dimName
  if (outputsOf scanned.selectItems dimColumn).dedup.length > 1 then none
  else
    some {
      native := .topN ⟨dimColumn, dimOutput⟩ threshold ⟨metricName, firstOrder.asc⟩
      filter := filter
      aggregations := scanned.aggs.nativeAggregations
      postAggregations := scanned.aggs.postAggs
      outputColumns := scanned.selectItems.map fun
        | .dimension _ _ => dimOutput
        | .aggregate name => name }

def subtotal (bindings : List (Utf8 × Utf8)) (dim : Utf8) : Except PlanError Utf8 :=
  match bindings.find? fun binding => binding.1 = dim ∨ binding.2 = dim with
  | some binding => .ok binding.2
  | none => .error (.groupingSet dim)

def subtotals (bindings : List (Utf8 × Utf8)) (sets : List (List Utf8)) : Except PlanError (List (List Utf8)) :=
  sets.mapM (List.mapM (subtotal bindings))

def planGroupby (select : Select) (filter : Option FilterSpec) (scanned : Scanned) (groupByDims : List Utf8) : Except PlanError PlannedQuery := do
  let bindings := groupByDims.map (resolveDimBinding scanned.selectItems)
  let outputNames := scanned.selectItems.map SelectOutputItem.output
  let having ← convertOptional convertHaving .having select.having
  let columns ← select.orderBy.mapM (orderByColumn planner scanned.aggs outputNames scanned.dimensionExprs bindings)
  let limitSpec := if select.orderBy ≠ [] ∨ select.limit.isSome then some { limit := select.limit, columns := columns } else none
  let subtotalsSpec ← match select.groupingSets with
    | none => .ok none
    | some sets => (subtotals bindings sets).map some
  .ok {
    native := .groupBy (groupDimensions scanned.selectItems bindings) subtotalsSpec having limitSpec
    filter := filter
    aggregations := scanned.aggs.nativeAggregations
    postAggregations := scanned.aggs.postAggs
    outputColumns := outputNames }

inductive Plan where
  /-- no aggregate and no GROUP BY -/
  | scan
  | aggregating (planned : PlannedQuery)

def planSelect (select : Select) : Except PlanError Plan := do
  let scanned ← scanProjections planner select.projections
  let groupByDims ← extractGroupByDims select
  let filter ← convertOptional convertFilter .filter select.filter
  if !scanned.aggs.hasAggregation && select.groupBy.isEmpty then .ok .scan
  else do
    ensureProjectionsGrouped groupByDims scanned.dimensionExprs
    if scanned.aggs.hasAggregation && select.groupBy.isEmpty then .ok (.aggregating (planTimeseriesAll filter scanned.aggs))
    else
      let topn := match groupByDims with
        | [dimName] => if select.groupingSets.isNone && select.limit.isSome && !select.orderBy.isEmpty
            then tryPlanTopn planner select filter scanned dimName else none
        | _ => none
      match topn with
      | some planned => .ok (.aggregating planned)
      | none => do
        let planned ← planGroupby planner select filter scanned groupByDims
        .ok (.aggregating planned)

end

end FerroDruid.Sql.Grouped
