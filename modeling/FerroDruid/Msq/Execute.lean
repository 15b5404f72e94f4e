import FerroDruid.Lib.Sorting
import FerroDruid.Msq.Plan
/-!
# Running a plan over rows

`execute_msq_with_input` and `plan_to_query_definition` of
`ferrodruid-msq/src/executor.rs`, and `QueryDefinition` of `engine.rs`: the SQL is
parsed again, WHERE filters the input, and ORDER BY, LIMIT and the projections are
applied to what the engine puts out.
-/

namespace FerroDruid.Msq

open Lib Sql

/-! ## Stage graphs -/

inductive Processor where
  | scan (project : List Utf8)
  | shuffle
  | aggregate (groupBy : List Utf8) (aggs : List AggFn)

structure StageDefinition where
  stageNumber : ℕ
  inputs : List ℕ
  processor : Processor
  signature : RowSignature
  shuffle : ShuffleSpec

structure QueryDefinition where
  stages : List StageDefinition
  finalStage : ℕ

namespace QueryDefinition

variable (q : QueryDefinition)

def validate : Except MsqError Unit :=
  if q.stages.length ≤ q.finalStage then .error .invalidQuery
  else if q.stages.zipIdx.all fun st => st.1.stageNumber = st.2 && st.1.inputs.all (· < st.2) &&
      decide (st.1.shuffle.partitionCount ≤ MAX_SHUFFLE_PARTITIONS) then .ok ()
  else .error .invalidQuery

/-- The stages that a stage feeds. -/
def successors (dep : ℕ) : List ℕ := q.stages.flatMap fun st => (st.inputs.filter (· = dep)).map fun _ => st.stageNumber

def indegrees : List ℕ := (List.range q.stages.length).map fun i => (q.stages.map fun st => if st.stageNumber = i then st.inputs.length else 0).sum

def insertSorted (v : List ℕ) (x : ℕ) : List ℕ := v.takeWhile (· < x) ++ x :: v.dropWhile (· < x)

/-- One successor has one input less to wait for. -/
def release (st : List ℕ × List ℕ) (succ : ℕ) : List ℕ × List ℕ :=
  let indegree := st.1.modify succ (· - 1)
  (indegree, if indegree.getD succ 0 = 0 then st.2 ++ [succ] else st.2)

/-- Kahn's algorithm; every stage is taken once, so there is fuel for each. -/
def kahn : ℕ → List ℕ → List ℕ → List ℕ
  | fuel + 1, next :: ready, indegree =>
    let (indegree, newlyReady) := (q.successors next).foldl release (indegree, [])
    next :: kahn fuel (newlyReady.foldl insertSorted ready) indegree
  | _, _, _ => []

def topologicalOrder : Except MsqError (List ℕ) :=
  let n := q.stages.length
  if q.stages.any fun st => st.inputs.any (n ≤ ·) then .error .invalidQuery
  else
    let order := q.kahn n ((List.range n).filter fun i => q.indegrees.getD i 0 = 0) q.indegrees
    if order.length ≠ n then .error .invalidQuery else .ok order

/-- The signature of what flows into a stage. -/
def inputSignature (stage : StageDefinition) : RowSignature :=
  match stage.inputs with
  | dep :: _ => ((q.stages[dep]?).map (·.signature)).getD stage.signature
  | [] => stage.signature

def runStage (text : JsonText) (config : EngineConfig) (stage : StageDefinition) (inRows : List Row) : Except MsqError (List Row) :=
  match stage.processor with
  | .scan _ => .ok inRows
  | .shuffle => ((runShuffle text (q.inputSignature stage) stage.shuffle config inRows).mapError .engine).map (·.1)
  | .aggregate groupBy aggs => ((runAggregate text (q.inputSignature stage) groupBy aggs config inRows).mapError .engine).map (·.1)

/-- The stages in order, each over the rows of its inputs; a leaf is over the input. -/
def runStages (text : JsonText) (config : EngineConfig) (input : List Row) :
    List ℕ → List (Option (List Row)) → Except MsqError (List (Option (List Row)))
  | [], outputs => .ok outputs
  | stageNo :: order, outputs =>
    match q.stages[stageNo]? with
    | none => .error .invalidQuery
    | some stage => do
      let inRows := if stage.inputs = [] then input else (stage.inputs.map fun dep => (outputs.getD dep none).getD []).flatten
      let rows ← q.runStage text config stage inRows
      runStages text config input order (outputs.set stageNo (some rows))

/-- The rows of the final stage. -/
def run (text : JsonText) (config : EngineConfig) (input : List Row) : Except MsqError (RowSignature × List Row) := do
  q.validate
  let order ← q.topologicalOrder
  let outputs ← q.runStages text config input order (List.replicate q.stages.length none)
  match q.stages[q.finalStage]? with
  | none => .error .invalidQuery
  | some stage => .ok (stage.signature, (outputs.getD q.finalStage none).getD [])

end QueryDefinition

/-! ## From the plan to stages -/

namespace AggFn

/-- `AggFn::output_name`, as the name of a column. -/
def column : AggFn → Utf8
  | count => AggFunc.countName
  | longSum field => AggFunc.sum.fieldName field
  | longMin field => AggFunc.min.fieldName field
  | longMax field => AggFunc.max.fieldName field

end AggFn

def translateAggregation (input : RowSignature) (agg : AggSpec) : Except MsqError AggFn :=
  if agg.func = .count then .ok .count
  else
    match agg.fieldName with
    | none => .error (.aggregationWithoutField agg.func)
    | some field =>
      if (input.indexOf field).isNone then .error (.aggregationFieldMissing field)
      else
        match agg.func with
        | .count => .ok .count
        | .sum => .ok (.longSum field)
        | .min => .ok (.longMin field)
        | .max => .ok (.longMax field)

/-- Groups without an aggregate are counted. -/
def translateAggregations (aggregations : List AggSpec) (input : RowSignature) : Except MsqError (List AggFn) := do
  let out ← aggregations.mapM (translateAggregation input)
  .ok (if out = [] then [.count] else out)

namespace ExecutionPlan

variable (plan : ExecutionPlan)

def validate : Except MsqError Unit :=
  if plan.stages.length ≤ plan.outputStage then .error .invalidPlan
  else if plan.stages.zipIdx.all fun st => st.1.stageNumber = st.2 && st.1.inputStages.all (· < st.2) then .ok ()
  else .error .invalidPlan

/-- The aggregation that is planned, if any. -/
def aggregation : Option (List Utf8 × List AggSpec) :=
  plan.stages.findSome? fun st =>
    match st.stageType with
    | .aggregate dimensions aggregations => some (dimensions, aggregations)
    | _ => none

/-- Whether a WHERE, ORDER BY or LIMIT is planned. -/
def hasUnappliedClauses : Bool :=
  plan.stages.any fun st =>
    match st.stageType with
    | .scan _ filter => filter.isSome
    | .sort orderBy limit => orderBy ≠ [] || limit.isSome
    | _ => false

def toQueryDefinition (input : RowSignature) : Except MsqError QueryDefinition :=
  let scan : StageDefinition := ⟨0, [], .scan input.columns, input, .none⟩
  match plan.aggregation with
  | none => .ok ⟨[scan, ⟨1, [0], .shuffle, input, .none⟩], 1⟩
  | some (dimensions, aggregations) =>
    match dimensions.find? fun d => (input.indexOf d).isNone with
    | some d => .error (.groupColumnMissing d)
    | none => do
      let aggs ← translateAggregations aggregations input
      .ok ⟨[scan, ⟨1, [0], .shuffle, input, .hash dimensions 4⟩,
        ⟨2, [1], .aggregate dimensions aggs, ⟨dimensions ++ aggs.map AggFn.column⟩, .none⟩], 2⟩

end ExecutionPlan

/-! ## Clauses around the engine -/

namespace Value

/-- For a filter; floats are not among the cells of one. -/
def toCell : Value → Cell
  | long v => .int v
  | str s => .str s
  | null | double _ => .null

/-- `to_json`. -/
def plainJson : Value → Json
  | null => .null
  | long v => .ofI64 v
  | double v => .ofF64 v
  | str s => .string s

end Value

/-- A row by the names of its columns; a later column replaces one of the same name. -/
def byName {α : Type} (f : Value → α) (columns : List Utf8) (row : Row) : HashMap Utf8 α :=
  HashMap.insertAll (columns.zipIdx.map fun column => (column.1, f (row.getD column.2 .null))) ∅

def rowToMap (sig : RowSignature) (row : Row) : RowMap := byName Value.toCell sig.columns row

def rowToJson (sig : RowSignature) (row : Row) : HashMap Utf8 Json := byName Value.plainJson sig.columns row

/-- The process-wide null mode and the regex crate. -/
structure FilterMode where
  legacy : Bool
  regex : RegexCrate

def applyWhereFilter (mode : FilterMode) (input : InputTable) (select : SelectQuery) : Except MsqError InputTable :=
  match select.filter with
  | none => .ok input
  | some expr =>
    match convertFilter expr with
    | .error e => .error (.filter e)
    | .ok filter =>
      .ok {
        signature := input.signature
        rows := input.rows.filter fun row => filter.isMatch mode.legacy mode.regex (rowToMap input.signature row)
        aligned := fun row hrow => input.aligned row (List.mem_filter.1 hrow).1
      }

structure ProjectionItem where
  source : Utf8
  output : Utf8
  deriving DecidableEq

def cellAt (i : ℕ) (row : Row) : Value := row.getD i .null

def orderKey (sig : RowSignature) (projectionPlan : Option (List ProjectionItem)) (ob : OrderByExpr) : Except MsqError (ℕ × Bool) :=
  match ob.expr with
  | .column name =>
    let engineCol := ((projectionPlan.bind fun plan => plan.find? (·.output = name)).map (·.source)).getD name
    match sig.indexOf engineCol with
    | some idx => .ok (idx, ob.asc)
    | none => .error (.orderByColumn name)
  | _ => .error .orderByExpression

/-- `compare_values` has the cases of `total_cmp`. -/
def applyOrderBy (rows : List Row) (sig : RowSignature) (orderBy : List OrderByExpr) (projectionPlan : Option (List ProjectionItem)) :
    Except MsqError (List Row) := do
  let keys ← orderBy.mapM (orderKey sig projectionPlan)
  .ok (rows.insertionSort fun a b => compareBy Value.totalCmp cellAt keys a b ≠ .gt)

namespace SqlReader

variable (reader : SqlReader)

def aggEngineColumn (func : Utf8) (arg : Option SqlExpr) (distinct : Bool) : Except MsqError Utf8 :=
  let lower := reader.toLowercase func.bytes
  let star := match arg with
    | none | some .star => true
    | _ => false
  if lower = AggFunc.count.name && !distinct && star then .ok AggFunc.countName
  else if (lower = AggFunc.sum.name || lower = AggFunc.min.name || lower = AggFunc.max.name) && !distinct then
    match arg with
    | some (.column field) => .ok (lower ++ ⟨ascii "_", Eq.refl true⟩ ++ reader.toLowercase field.bytes)
    | _ => .error (.aggregateNotAliased func)
  else .error (.aggregateNotAliased func)

/-- The engine's column for an expression; a computed one has none. -/
def projectionSource : SqlExpr → Except MsqError (Option Utf8)
  | .column name => .ok (some name)
  | .aggregate func arg distinct => (reader.aggEngineColumn func arg distinct).map some
  | _ => .ok none

/-- None if what the engine puts out is to stay as it is. -/
def resolveProjectionPlan : List Projection → List ProjectionItem → Except MsqError (Option (List ProjectionItem))
  | [], plan => .ok (if plan = [] then none else some plan)
  | .wildcard :: _, _ => .ok none
  | .expr expr label :: projections, plan => do
    match ← reader.projectionSource expr with
    | none => .ok none
    | some source =>
      let output := label.getD source
      if output ∈ plan.map (·.output) then .error (.duplicateOutput output)
      else resolveProjectionPlan projections (plan ++ [⟨source, output⟩])

end SqlReader

def applyProjection (sig : RowSignature) (rows : List Row) : Option (List ProjectionItem) → Except MsqError (RowSignature × List Row)
  | none => .ok (sig, rows)
  | some plan => do
    let indices ← plan.mapM fun item =>
      match sig.indexOf item.source with
      | some idx => .ok idx
      | none => .error (.selectColumn item.source)
    let columns := plan.map (·.output)
    if indices = List.range sig.columns.length ∧ columns = sig.columns then .ok (sig, rows)
    else .ok (⟨columns⟩, rows.map fun row => indices.map fun i => cellAt i row)

/-- The names of the columns, and the rows as JSON objects. -/
structure MsqResults where
  signature : List Utf8
  results : List (HashMap Utf8 Json)

/-- The order, the limit and the projections of a query. -/
def applyClauses (reader : SqlReader) (select : SelectQuery) (sig : RowSignature) (rows : List Row) : Except MsqError (RowSignature × List Row) := do
  let projectionPlan ← reader.resolveProjectionPlan select.projections []
  let rows ← applyOrderBy rows sig select.orderBy projectionPlan
  applyProjection sig (match select.limit with | some limit => rows.take limit | none => rows) projectionPlan

def executeMsqWithInput (reader : SqlReader) (mode : FilterMode) (text : JsonText) (plan : ExecutionPlan) (input : InputTable)
    (config : EngineConfig) : Except MsqError MsqResults := do
  plan.validate
  let select := match reader.parseDruidSql plan.sql with
    | some (.select select) => some select
    | _ => none
  if select.isNone && plan.hasUnappliedClauses then .error .clausesNotLowered
  else
    let input ← match select with
      | some select => applyWhereFilter mode input select
      | none => .ok input
    let qdef ← plan.toQueryDefinition input.signature
    let (signature, rows) ← qdef.run text config input.rows
    let (signature, rows) ← match select with
      | some select => applyClauses reader select signature rows
      | none => .ok (signature, rows)
    .ok ⟨signature.columns, rows.map (rowToJson signature)⟩

end FerroDruid.Msq
