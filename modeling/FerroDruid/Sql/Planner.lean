import FerroDruid.Lib.Kleene
import FerroDruid.Sql.Filter
/-!
# From SQL conditions to filters

`convert_filter` of `ferrodruid-sql/src/planner.rs` on the expressions of
`parser.rs`, with integer, string, null and timestamp literals.
-/

namespace FerroDruid.Sql

open Lib

/-! ## Expressions -/

inductive SqlLiteral where
  | integer (n : Int64)
  | string (s : Utf8)
  | null
  | timestamp (millis : Int64)
  deriving DecidableEq

inductive BinaryOperator where
  | eq
  | notEq
  | lt
  | ltEq
  | gt
  | gtEq
  | plus
  | minus
  | multiply
  | divide
  deriving DecidableEq

/-- Functions, casts, windows and arrays are `other`. -/
inductive SqlExpr where
  | column (name : Utf8)
  | literal (value : SqlLiteral)
  | aggregate (func : Utf8) (arg : Option SqlExpr) (distinct : Bool)
  | binaryOp (left : SqlExpr) (op : BinaryOperator) (right : SqlExpr)
  | and (left right : SqlExpr)
  | or (left right : SqlExpr)
  | not (inner : SqlExpr)
  | isNull (inner : SqlExpr)
  | isNotNull (inner : SqlExpr)
  | between (expr low high : SqlExpr) (negated : Bool)
  | inList (expr : SqlExpr) (list : List SqlExpr) (negated : Bool)
  | like (expr pattern : SqlExpr) (negated : Bool)
  | positional (n : ℕ)
  | star
  | other (text : Utf8)

inductive DruidError where
  | unsupportedOperator (op : BinaryOperator)
  | expectedColumn
  | expectedLiteral
  | likePattern
  | unsupportedExpression
  deriving DecidableEq

/-! ## Filters -/

def exprToColumnName : SqlExpr → Except DruidError Utf8
  | .column name => .ok name
  | _ => .error .expectedColumn

def literalCell : SqlLiteral → Cell
  | .integer n => .int n
  | .string s => .str s
  | .null => .null
  | .timestamp millis => .int millis

def exprToJsonValue : SqlExpr → Except DruidError Cell
  | .literal lit => .ok (literalCell lit)
  | _ => .error .expectedLiteral

/-- Under a negation or not. -/
def negateIf (negated : Bool) (filter : FilterSpec) : FilterSpec := if negated then .not filter else filter

@[simp] def convertFilter : SqlExpr → Except DruidError FilterSpec
  | .binaryOp left op right =>
    match op with
    | .eq => do
      let dim ← exprToColumnName left
      let val ← exprToJsonValue right
      .ok (.selector dim (some val))
    | .notEq => do
      let dim ← exprToColumnName left
      let val ← exprToJsonValue right
      .ok (.not (.selector dim (some val)))
    | .lt | .ltEq | .gt | .gtEq => do
      let dim ← exprToColumnName left
      let val ← exprToJsonValue right
      let valStr := val.valueToString
      match op with
      | .gt => .ok (.bound dim (some valStr) none (some true) none (some numeric))
      | .gtEq => .ok (.bound dim (some valStr) none (some false) none (some numeric))
      | .lt => .ok (.bound dim none (some valStr) none (some true) (some numeric))
      | _ => .ok (.bound dim none (some valStr) none (some false) (some numeric))
    | op => .error (.unsupportedOperator op)
  | .and left right => do
    let l ← convertFilter left
    let r ← convertFilter right
    .ok (.and [l, r])
  | .or left right => do
    let l ← convertFilter left
    let r ← convertFilter right
    .ok (.or [l, r])
  | .not inner => do
    let f ← convertFilter inner
    .ok (.not f)
  | .isNull inner => do
    let dim ← exprToColumnName inner
    .ok (.null dim)
  | .isNotNull inner => do
    let dim ← exprToColumnName inner
    .ok (.not (.null dim))
  | .inList inner list negated => do
    let dim ← exprToColumnName inner
    let values ← list.mapM exprToJsonValue
    .ok (negateIf negated (.in_ dim values))
  | .like inner pattern negated => do
    let dim ← exprToColumnName inner
    match pattern with
    | .literal (.string s) => .ok (negateIf negated (.like dim s none))
    | _ => .error .likePattern
  | .between inner low high negated => do
    let dim ← exprToColumnName inner
    let lo ← exprToJsonValue low
    let hi ← exprToJsonValue high
    .ok (negateIf negated (.bound dim (some lo.valueToString) (some hi.valueToString) (some false) (some false) (some numeric)))
  | _ => .error .unsupportedExpression

/-! ## Parsed queries

`SelectQuery` and what it is made of, of `ferrodruid-sql/src/parser.rs`. -/

/-- Everything, or an expression under its name if it has one. -/
inductive Projection where
  | wildcard
  | expr (expr : SqlExpr) (label : Option Utf8)

/-- A table; the rows of a sub-query and of joined tables are not those of one. -/
inductive TableReference where
  | table (name : Utf8) (label : Option Utf8)
  | derived

structure OrderByExpr where
  expr : SqlExpr
  asc : Bool

structure SelectQuery where
  projections : List Projection
  fromTable : TableReference
  filter : Option SqlExpr
  groupBy : List SqlExpr
  /-- The dimensions of each set, for `GROUPING SETS`, `CUBE` and `ROLLUP`. -/
  groupingSets : Option (List (List Utf8))
  having : Option SqlExpr
  orderBy : List OrderByExpr
  limit : Option ℕ
  offset : Option ℕ

/-- A query, or an `EXPLAIN`, a `UNION ALL` or a `SELECT` of constants. -/
inductive DruidSqlStatement where
  | select (query : SelectQuery)
  | other

end FerroDruid.Sql
