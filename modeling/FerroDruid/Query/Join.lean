import FerroDruid.Lib.HashJoin
import FerroDruid.Lib.Text
import FerroDruid.Query.Segment
/-!
# Joins

`join.rs`: a broadcast hash join of rows that have been read with an inline table, a
lookup, or the rows of a subquery. The JSON text of numbers and objects is a
parameter.
-/

namespace FerroDruid.Query.Join

open Lib

abbrev Row := HashMap String Json

abbrev LookupTable := HashMap Utf8 Utf8

abbrev LookupManager := HashMap String LookupTable

inductive JoinType where
  | inner
  | left
  deriving DecidableEq

structure JoinCondition where
  leftKey : String
  /-- Before the prefix is applied. -/
  rightKey : String

inductive JoinRight where
  | inline (columnNames : List String) (rows : List (List Json))
  | lookup (lookup keyColumn valueColumn : String)
  | rows (columnNames : List String) (rows : List Row)

structure JoinDataSource where
  right : JoinRight
  rightPrefix : String
  condition : JoinCondition
  joinType : JoinType

def JoinRight.columnNames : JoinRight → List String
  | inline columnNames _ => columnNames
  | lookup _ keyColumn valueColumn => [keyColumn, valueColumn]
  | rows columnNames _ => columnNames

/-! ## Keys -/

def boolText : Bool → Utf8
  | true => ⟨ascii "true", Eq.refl true⟩
  | false => ⟨ascii "false", Eq.refl true⟩

/-- The text that a value is joined by; none for null. -/
def joinKey (text : Json → Utf8) (keyColumn : String) : Json → Except DruidError (Option Utf8)
  | .null => .ok none
  | .string s => .ok (some s)
  | .bool b => .ok (some (boolText b))
  | .number n => .ok (some (text (.number n)))
  | .array _ =>
    .error (.query ("join on a multi-value dimension `" ++ keyColumn ++ "` is not supported yet (element-wise MV joins are a follow-on)"))
  | other => .ok (some (text other))

/-- A row without the column has no key. -/
def rowKey (text : Json → Utf8) (keyColumn : String) (row : Row) : Except DruidError (Option Utf8) :=
  match row.lookup keyColumn with
  | some value => joinKey text keyColumn value
  | none => .ok none

/-! ## The right side -/

structure RightRelation where
  /-- What the right side of a row without a match is filled with. -/
  prefixedColumns : List String
  index : HashMap Utf8 (List Row)

def inlineRow (columnNames : List String) (raw : List Json) : Row := HashMap.insertAll (columnNames.zip raw) ∅

def materialiseInline (columnNames : List String) (raw : List Json) : Except DruidError Row :=
  if raw.length ≠ columnNames.length then
    .error (.query ("join: inline right row has " ++ toString raw.length ++ " values but " ++ toString columnNames.length ++ " columns"))
  else .ok (inlineRow columnNames raw)

def lookupRow (keyColumn valueColumn : String) (table : LookupTable) (key : Utf8) : Row :=
  ((∅ : Row).insert keyColumn (.string key)).insert valueColumn (.string (table.getD key ⟨[], Eq.refl true⟩))

def JoinRight.materialise (lookups : LookupManager) : JoinRight → Except DruidError (List Row)
  | .inline columnNames rawRows => rawRows.mapM (materialiseInline columnNames)
  | .lookup name keyColumn valueColumn =>
    match lookups.lookup name with
    | some table => .ok (table.keys.map (lookupRow keyColumn valueColumn table))
    | none => .error (.query ("join: lookup \"" ++ name ++ "\" not found"))
  | .rows _ rightRows => .ok rightRows

def prefixRow (rightPrefix : String) (row : Row) : Row := HashMap.insertAll (row.entries.map fun e => (rightPrefix ++ e.1, e.2)) ∅

/-- The prefixed rows by their keys. -/
def buildIndex (text : Json → Utf8) (rightPrefix rightKey : String) (rows : List Row) : Except DruidError (HashMap Utf8 (List Row)) :=
  rows.foldlM (fun index row => do
    let key ← rowKey text rightKey row
    .ok (addRow index key (prefixRow rightPrefix row))) ∅

def RightRelation.build (text : Json → Utf8) (right : JoinRight) (rightPrefix rightKey : String) (lookups : LookupManager) :
    Except DruidError RightRelation := do
  let rows ← right.materialise lookups
  if rightKey ∉ right.columnNames then
    .error (.query ("join: right key \"" ++ rightKey ++ "\" is not a column of the right relation"))
  else
    let index ← buildIndex text rightPrefix rightKey rows
    .ok ⟨right.columnNames.map (rightPrefix ++ ·), index⟩

/-! ## Joining -/

/-- On a collision the left value stays. -/
def matchedRow (left right : Row) : Row := left.orInsertAll right.entries

def unmatchedRow (prefixedColumns : List String) (left : Row) : Row := left.orInsertAll (prefixedColumns.map fun col => ⟨col, .null⟩)

def joinRow (text : Json → Utf8) (join : JoinDataSource) (right : RightRelation) (left : Row) : Except DruidError (List Row) := do
  let key ← rowKey text join.condition.leftKey left
  match key.bind right.index.lookup with
  | some (r :: rows) => .ok ((r :: rows).map (matchedRow left))
  | _ =>
    if join.joinType = .left then .ok [unmatchedRow right.prefixedColumns left]
    else .ok []

def executeJoin (text : Json → Utf8) (join : JoinDataSource) (leftRows : List Row) (lookups : LookupManager) : Except DruidError (List Row) := do
  let right ← RightRelation.build text join.right join.rightPrefix join.condition.rightKey lookups
  let out ← leftRows.mapM (joinRow text join right)
  .ok out.flatten

/-- The left columns, then the prefixed right columns that are new. -/
def joinOutputColumns (join : JoinDataSource) (leftColumns : List String) : List String :=
  join.right.columnNames.foldl (fun cols c => if join.rightPrefix ++ c ∈ cols then cols else cols ++ [join.rightPrefix ++ c]) leftColumns

end FerroDruid.Query.Join
