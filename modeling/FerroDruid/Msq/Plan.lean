import FerroDruid.Msq.Engine
import FerroDruid.Sql.Planner
/-!
# Planned queries

The plans of `ferrodruid-msq/src/executor.rs`: stages of scans, aggregations,
shuffles and sorts, and the errors of planning and running them. The SQL parser
and Unicode's case mapping are given.
-/

namespace FerroDruid.Msq

open Lib Sql

def asciiLower (b : UInt8) : UInt8 := if 0x41 ≤ b && b ≤ 0x5A then b + 0x20 else b

/-- What reads SQL: `parse_druid_sql`, and `str::to_lowercase`. -/
structure SqlReader where
  parseDruidSql : Bytes → Option DruidSqlStatement
  toLowercase : Bytes → Utf8
  toLowercase_ascii : ∀ bs, (∀ b ∈ bs, b < 0x80) → (toLowercase bs).bytes = bs.map asciiLower

/-! ## Plans -/

inductive AggFunc where
  | count
  | sum
  | min
  | max
  deriving DecidableEq

/-- An aggregation as it is planned: what it is called and the column it is over. -/
structure AggSpec where
  func : AggFunc
  name : Utf8
  fieldName : Option Utf8

inductive StageType where
  | scan (dataSource : Bytes) (filter : Option FilterSpec)
  | aggregate (dimensions : List Utf8) (aggregations : List AggSpec)
  | shuffle (partitionKey : List Utf8) (numPartitions : ℕ)
  | sort (orderBy : List Utf8) (limit : Option ℕ)
  | insert (targetDataSource : Bytes) (replaceExisting : Bool)

structure ExecutionStage where
  stageNumber : ℕ
  stageType : StageType
  inputStages : List ℕ

structure ExecutionPlan where
  stages : List ExecutionStage
  outputStage : ℕ
  sql : Bytes

inductive MsqError where
  | invalidPlan
  | invalidQuery
  | clausesNotLowered
  | groupColumnMissing (column : Utf8)
  | aggregationWithoutField (func : AggFunc)
  | aggregationFieldMissing (field : Utf8)
  | orderByExpression
  | orderByColumn (column : Utf8)
  | duplicateOutput (column : Utf8)
  | aggregateNotAliased (func : Utf8)
  | selectColumn (column : Utf8)
  | filter (e : Sql.DruidError)
  | engine (e : DruidError)

namespace AggFunc

def countName : Utf8 := ⟨ascii "count", Eq.refl true⟩

def sumName : Utf8 := ⟨ascii "sum", by decide⟩

def minName : Utf8 := ⟨ascii "min", by decide⟩

def maxName : Utf8 := ⟨ascii "max", by decide⟩

def name : AggFunc → Utf8
  | count => countName
  | sum => sumName
  | min => minName
  | max => maxName

/-- The function, an underscore and the field. -/
def fieldName (func : AggFunc) (field : Utf8) : Utf8 := func.name ++ ⟨ascii "_", Eq.refl true⟩ ++ field

end AggFunc

end FerroDruid.Msq
