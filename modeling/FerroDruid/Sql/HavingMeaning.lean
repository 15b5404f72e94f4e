import FerroDruid.Lib.JsonNumber
import FerroDruid.Sql.AliasMeaning
/-!
# What HAVING selects

Only a groupBy has the lowered conditions. It keeps a group as SQL has it when each
comparison finds its aggregate by name and the moved bound tells the group's value
apart from the bound that was meant; for one comparison both are needed. A topN and
a timeseries keep every group.
-/

namespace FerroDruid.Sql

open Lib
open Query (estimate_ascii numericAggCell sketch_ascii)

/-! ## Numbers -/

/-- The number of a value: of a sketch its estimate. -/
def sqlNumber : Json → Option JsonNumber
  | .object fields =>
    match Json.get fields (.ofAscii (ascii "@sketch") sketch_ascii) with
    | some _ => (Json.get fields (.ofAscii (ascii "estimate") estimate_ascii)).bind Json.plainNumber
    | none => none
  | value => Json.plainNumber value

theorem numericAggCell_eq (value : Json) : numericAggCell value = (sqlNumber value).map JsonNumber.toFloat := by
  cases value with
  | number n => exact Json.asF64_eq (.number n)
  | object fields =>
    cases hsketch : Json.get fields (.ofAscii (ascii "@sketch") sketch_ascii) with
    | some sketch =>
      simp only [numericAggCell, sqlNumber, hsketch]
      rw [Option.map_bind]
      exact congrArg _ (funext Json.asF64_eq)
    | none =>
      simp only [numericAggCell, sqlNumber, hsketch]
      rfl
  | _ => rfl

/-- Bounds that are within epsilon of an integer below 2 to the 53. -/
theorem bound_small {k t : ℤ} (hk : k.natAbs < 2 ^ 53) (ht : (t - F64.unitsOne * k).natAbs ≤ F64.unitsEpsilon) :
    t.natAbs < F64.unitsOne * 2 ^ 53 := by
  have hmul : F64.unitsOne * (k.natAbs + 1) ≤ F64.unitsOne * 2 ^ 53 := Nat.mul_le_mul_left _ hk
  have heps : F64.unitsEpsilon < F64.unitsOne := by
    have := F64.unitsEpsilon_pos
    rw [F64.unitsOne_eq_epsilon]
    omega
  have habs : (F64.unitsOne * k).natAbs = F64.unitsOne * k.natAbs := by rw [Int.natAbs_mul, Int.natAbs_natCast]
  rw [Nat.mul_succ] at hmul
  omega

/-! ## One comparison -/

def comparesTo : BinaryOperator → ℤ → ℤ → Prop
  | .gt, a, b => b < a
  | .gtEq, a, b => b ≤ a
  | .lt, a, b => a < b
  | .ltEq, a, b => a ≤ b
  | .eq, a, b => a = b
  | _, _, _ => False

/-- When the bound of a lowered comparison decides as the bound that was meant. A
reached bound far from zero is lost, as it does not move; one near zero takes
the values within epsilon with it. -/
def BoundKept (op : BinaryOperator) (value k : ℤ) : Prop :=
  match op with
  | .gtEq => if -1 ≤ k ∧ k ≤ 2 then ¬(F64.unitsOne * k - F64.unitsEpsilon < value ∧ value < F64.unitsOne * k) else value ≠ F64.unitsOne * k
  | .ltEq => if -2 ≤ k ∧ k ≤ 1 then ¬(F64.unitsOne * k < value ∧ value < F64.unitsOne * k + F64.unitsEpsilon) else value ≠ F64.unitsOne * k
  | .eq => ¬(value ≠ F64.unitsOne * k ∧ (value - F64.unitsOne * k).natAbs < F64.unitsEpsilon)
  | _ => True

section

variable {k : ℤ} (hk : k.natAbs < 2 ^ 53) (n : JsonNumber)

include hk

theorem ofInt_lt_iff : (F64.ofInt k).lt n.toFloat = true ↔ F64.unitsOne * k < n.units := by
  rw [F64.lt_iff_exact (F64.isFinite_ofInt (by omega)) n.isFinite_toFloat, F64.exact_ofInt hk.le]
  exact (n.toFloat_side (bound_small hk (by simp))).2

theorem lt_ofInt_iff : n.toFloat.lt (F64.ofInt k) = true ↔ n.units < F64.unitsOne * k := by
  rw [F64.lt_iff_exact n.isFinite_toFloat (F64.isFinite_ofInt (by omega)), F64.exact_ofInt hk.le]
  exact (n.toFloat_side (bound_small hk (by simp))).1

theorem lowered_lt_iff :
    ((F64.ofInt k).sub (.epsilon false)).lt n.toFloat = true ↔
      if -1 ≤ k ∧ k ≤ 2 then F64.unitsOne * k - F64.unitsEpsilon < n.units else F64.unitsOne * k < n.units := by
  have hsub : (F64.ofInt k).sub (.epsilon false) = (F64.ofInt k).add (.epsilon true) := rfl
  rw [hsub]
  split_ifs with hnear
  · obtain ⟨hfinite, hexact⟩ := F64.exact_add_epsilon (k := k) true (by simp [F64.signed]; omega)
    rw [F64.lt_iff_exact hfinite n.isFinite_toFloat, hexact]
    exact (n.toFloat_side (bound_small hk (by simp [F64.signed]))).2
  · rw [F64.add_epsilon_far hk (by simp; omega)]
    exact ofInt_lt_iff hk n

theorem lt_raised_iff :
    n.toFloat.lt ((F64.ofInt k).add (.epsilon false)) = true ↔
      if -2 ≤ k ∧ k ≤ 1 then n.units < F64.unitsOne * k + F64.unitsEpsilon else n.units < F64.unitsOne * k := by
  split_ifs with hnear
  · obtain ⟨hfinite, hexact⟩ := F64.exact_add_epsilon (k := k) false (by simp [F64.signed]; omega)
    rw [F64.lt_iff_exact n.isFinite_toFloat hfinite, hexact]
    exact (n.toFloat_side (bound_small hk (by simp [F64.signed]))).1
  · rw [F64.add_epsilon_far hk (by simp; omega)]
    exact lt_ofInt_iff hk n

theorem near_iff :
    ((n.toFloat.sub (.ofInt k)).abs).lt (.epsilon false) = true ↔ (n.units - F64.unitsOne * k).natAbs < F64.unitsEpsilon := by
  have hlow := n.toFloat_side (bound_small (t := F64.unitsOne * k - F64.unitsEpsilon) hk (by simp))
  have hhigh := n.toFloat_side (bound_small (t := F64.unitsOne * k + F64.unitsEpsilon) hk (by simp))
  rw [F64.abs_sub_lt_epsilon n.isFinite_toFloat hk.le]
  omega

end

/-- What a lowered comparison decides about a value. -/
def LoweredTo (op : BinaryOperator) (value k : ℤ) : Prop :=
  match op with
  | .gt => F64.unitsOne * k < value
  | .gtEq => if -1 ≤ k ∧ k ≤ 2 then F64.unitsOne * k - F64.unitsEpsilon < value else F64.unitsOne * k < value
  | .lt => value < F64.unitsOne * k
  | .ltEq => if -2 ≤ k ∧ k ≤ 1 then value < F64.unitsOne * k + F64.unitsEpsilon else value < F64.unitsOne * k
  | .eq => (value - F64.unitsOne * k).natAbs < F64.unitsEpsilon
  | _ => False

theorem loweredTo_iff (op : BinaryOperator) (value k : ℤ) : (LoweredTo op value k ↔ comparesTo op value (F64.unitsOne * k)) ↔ BoundKept op value k := by
  have hpos := F64.unitsEpsilon_pos
  cases op with
  | gtEq =>
    simp only [LoweredTo, comparesTo, BoundKept]
    split_ifs
    · constructor <;> intro h <;> omega
    · constructor <;> intro h <;> omega
  | ltEq =>
    simp only [LoweredTo, comparesTo, BoundKept]
    split_ifs
    · constructor <;> intro h <;> omega
    · constructor <;> intro h <;> omega
  | eq =>
    simp only [LoweredTo, comparesTo, BoundKept]
    constructor <;> intro h <;> omega
  | _ => exact iff_true_intro Iff.rfl

theorem matches_comparison {left : SqlExpr} {op : BinaryOperator} {k : Int64} {spec : HavingSpec} (hk : k.toInt.natAbs < 2 ^ 53)
    (hspec : convertHaving (.binaryOp left op (.literal (.integer k))) = .ok spec) :
    ∃ name, havingAggName left = .ok name ∧
      ∀ row : GroupEvent, spec.isMatch row = true ↔ ∃ n, (row name).bind sqlNumber = some n ∧ LoweredTo op n.units k.toInt := by
  cases hname : havingAggName left with
  | error e =>
    simp only [convertHaving, hname] at hspec
    cases hspec
  | ok name =>
    refine ⟨name, rfl, fun row => ?_⟩
    have hnumber : row.number name = ((row name).bind sqlNumber).map JsonNumber.toFloat := by
      rw [GroupEvent.number, Option.map_bind]
      exact congrArg _ (funext numericAggCell_eq)
    have hany : ∀ (test : F64 → Bool) (holds : JsonNumber → Prop), (∀ n, test n.toFloat = true ↔ holds n) →
        ((row.number name).any test = true ↔ ∃ n, (row name).bind sqlNumber = some n ∧ holds n) := by
      intro test holds hholds
      rw [hnumber]
      cases (row name).bind sqlNumber with
      | none => simp
      | some n => simpa using hholds n
    simp only [convertHaving, hname, havingThreshold] at hspec
    cases op with
    | gt =>
      cases hspec
      exact hany _ _ fun n => ofInt_lt_iff hk n
    | gtEq =>
      cases hspec
      exact hany _ _ fun n => lowered_lt_iff hk n
    | lt =>
      cases hspec
      exact hany _ _ fun n => lt_ofInt_iff hk n
    | ltEq =>
      cases hspec
      exact hany _ _ fun n => lt_raised_iff hk n
    | eq =>
      cases hspec
      exact hany _ _ fun n => near_iff hk n
    | _ => cases hspec

namespace Grouped

/-! ## Groups -/

/-- How the fields of a group are computed from its rows, and what SQL has for an
expression that no plan computes. -/
structure Executor (Row : Type) where
  key : Utf8 → List Row → Json
  aggregate : Aggregate → List Row → Json
  constant : Constant → Json
  arithmetic : BinaryOperator → Json → Json → Json
  quotient : Json → Json → Json
  estimate : Json → Json
  expression : SelectExpr → List Row → Json

section

variable {Row : Type} (executor : Executor Row) (rows : List Row)

def Executor.value : Meaning → Json
  | .column name => executor.key name rows
  | .aggregate aggregate => executor.aggregate aggregate rows
  | .constant value => executor.constant value
  | .arithmetic fn left right => executor.arithmetic fn (value left) (value right)
  | .quotient dividend divisor => executor.quotient (value dividend) (value divisor)
  | .estimate sketch => executor.estimate (value sketch)
  | .expression expr => executor.expression expr rows

/-- The event of the group that has the rows. -/
def PlannedQuery.groupEvent (planned : PlannedQuery) : GroupEvent := fun name => (planned.event name).map (executor.value rows)

/-- Whether HAVING lets a group pass; a topN and a timeseries have none. -/
def PlannedQuery.keeps (planned : PlannedQuery) : Bool :=
  match planned.native with
  | .groupBy _ _ (some having) _ => having.isMatch (planned.groupEvent executor rows)
  | _ => true

end

/-! ## Plans of a grouped SELECT -/

section

variable (planner : Planner) (timeKey : Bool) (select : Select)

/-- The end of `plan_select` where there is a GROUP BY. Whether the SELECT list has a
time key (`TIME_FLOOR` or the shifted week) is a parameter; of a timeseries the
granularity is left out, and the output column of the time key. -/
def planGrouped (filter : Option FilterSpec) (scanned : Scanned) (groupByDims : List Utf8) : Except PlanError PlannedQuery :=
  if scanned.aggs.hasAggregation && groupByDims.isEmpty && timeKey then .ok (planTimeseriesAll filter scanned.aggs)
  else
    let topn := match groupByDims with
      | [dimName] =>
        if select.groupingSets.isNone && select.limit.isSome && !select.orderBy.isEmpty && !timeKey then
          tryPlanTopn planner select filter scanned dimName
        else none
      | _ => none
    match topn with
    | some planned => .ok planned
    | none => planGroupby planner select filter scanned groupByDims

theorem planSelect_grouped (h : select.groupBy ≠ []) : planSelect planner select = (do
    let scanned ← scanProjections planner select.projections
    let groupByDims ← extractGroupByDims select
    let filter ← convertOptional convertFilter .filter select.filter
    ensureProjectionsGrouped groupByDims scanned.dimensionExprs
    let planned ← planGrouped planner false select filter scanned groupByDims
    .ok (.aggregating planned)) := by
  have hempty : select.groupBy.isEmpty = false := by simpa using h
  refine bind_congr fun scanned => bind_congr fun groupByDims => bind_congr fun filter => ?_
  simp only [hempty, Bool.and_false, Bool.false_eq_true, if_false, planGrouped, Bool.not_false, Bool.and_true]
  refine bind_congr fun _ => ?_
  rcases groupByDims with _ | ⟨dim, _ | ⟨dim', dims⟩⟩
  · rfl
  · dsimp only
    split_ifs
    · cases tryPlanTopn planner select filter scanned dim <;> rfl
    · rfl
  · rfl

/-- The query is planned as a timeseries, or as a topN, and its HAVING is not read. -/
def SkipsHaving (scanned : Scanned) (groupByDims : List Utf8) : Prop :=
  (timeKey = true ∧ groupByDims = [] ∧ scanned.aggs.hasAggregation = true) ∨
    (timeKey = false ∧ select.groupingSets = none ∧ select.limit.isSome = true ∧ ∃ dim ∈ groupByDims, groupByDims = [dim] ∧
      (∃ order ∈ select.orderBy.head?, (orderExprToName planner scanned.aggs order.expr).isSome = true) ∧
      (outputsOf scanned.selectItems (resolveDimBinding scanned.selectItems dim).1).dedup.length ≤ 1)

variable {planner timeKey select} {filter : Option FilterSpec} {scanned : Scanned} {groupByDims : List Utf8} {planned : PlannedQuery}

theorem tryPlanTopn_spec {dim : Utf8} :
    (∃ planned, tryPlanTopn planner select filter scanned dim = some planned) ↔
      select.limit.isSome = true ∧
        (∃ order ∈ select.orderBy.head?, (orderExprToName planner scanned.aggs order.expr).isSome = true) ∧
        (outputsOf scanned.selectItems (resolveDimBinding scanned.selectItems dim).1).dedup.length ≤ 1 := by
  unfold tryPlanTopn
  cases select.limit with
  | none => simp
  | some threshold =>
    cases select.orderBy.head? with
    | none => simp
    | some order =>
      cases hmetric : orderExprToName planner scanned.aggs order.expr with
      | none => simp [hmetric]
      | some metric =>
        by_cases hone : (outputsOf scanned.selectItems (resolveDimBinding scanned.selectItems dim).1).dedup.length ≤ 1
        · simp [hmetric, hone]
        · simp [hmetric, hone, Nat.lt_of_not_le hone]

theorem native_of_tryPlanTopn {dim : Utf8} (h : tryPlanTopn planner select filter scanned dim = some planned) :
    ∃ dimension threshold metric, planned.native = .topN dimension threshold metric := by
  obtain ⟨threshold, -, h⟩ := Option.bind_eq_some_iff.1 h
  obtain ⟨order, -, h⟩ := Option.bind_eq_some_iff.1 h
  obtain ⟨metric, -, h⟩ := Option.bind_eq_some_iff.1 h
  dsimp only at h
  split_ifs at h
  cases h
  exact ⟨_, _, _, rfl⟩

/-- What a grouped SELECT is planned as. -/
theorem planGrouped_cases {having : SqlExpr} (hplan : planGrouped planner timeKey select filter scanned groupByDims = .ok planned)
    (hhaving : select.having = some having) :
    (SkipsHaving planner timeKey select scanned groupByDims ∧ ∀ {Row : Type} (executor : Executor Row) rows, planned.keeps executor rows = true) ∨
      (¬ SkipsHaving planner timeKey select scanned groupByDims ∧ ∃ spec, convertHaving having = .ok spec ∧
        ∀ {Row : Type} (executor : Executor Row) rows, planned.keeps executor rows = spec.isMatch (planned.groupEvent executor rows)) := by
  have hgroupby : planGroupby planner select filter scanned groupByDims = .ok planned → ∃ spec, convertHaving having = .ok spec ∧
      ∀ {Row : Type} (executor : Executor Row) rows, planned.keeps executor rows = spec.isMatch (planned.groupEvent executor rows) := by
    intro h
    obtain ⟨having', hconvert, h⟩ := bind_eq_ok.1 h
    obtain ⟨columns, -, h⟩ := bind_eq_ok.1 h
    have hnative : ∃ dimensions subtotals limitSpec, planned.native = .groupBy dimensions subtotals having' limitSpec := by
      dsimp only at h
      split at h
      · cases h
        exact ⟨_, _, _, rfl⟩
      · obtain ⟨sets, -, h⟩ := bind_eq_ok.1 h
        cases h
        exact ⟨_, _, _, rfl⟩
    obtain ⟨dimensions, subtotals, limitSpec, hnative⟩ := hnative
    rw [hhaving, convertOptional] at hconvert
    cases hspec : convertHaving having with
    | error e =>
      rw [hspec] at hconvert
      cases hconvert
    | ok spec =>
      rw [hspec] at hconvert
      cases hconvert
      refine ⟨spec, rfl, fun _ _ => ?_⟩
      rw [PlannedQuery.keeps, hnative]
  unfold planGrouped at hplan
  by_cases htime : (scanned.aggs.hasAggregation && groupByDims.isEmpty && timeKey) = true
  · rw [if_pos htime] at hplan
    simp only [Bool.and_eq_true, List.isEmpty_iff] at htime
    cases hplan
    exact .inl ⟨.inl ⟨htime.2, htime.1.2, htime.1.1⟩, fun _ _ => rfl⟩
  rw [if_neg htime] at hplan
  have hnotime : ¬(timeKey = true ∧ groupByDims = [] ∧ scanned.aggs.hasAggregation = true) := by
    rintro ⟨hkey, hdims, haggs⟩
    exact htime (by simp [hkey, hdims, haggs])
  by_cases hone : ∃ dim, groupByDims = [dim] ∧
      (select.groupingSets.isNone && select.limit.isSome && !select.orderBy.isEmpty && !timeKey) = true
  · obtain ⟨dim, rfl, hguard⟩ := hone
    simp only [if_pos hguard] at hplan
    simp only [Bool.and_eq_true, Bool.not_eq_true', Option.isNone_iff_eq_none] at hguard
    cases htopn : tryPlanTopn planner select filter scanned dim with
    | some planned' =>
      rw [htopn] at hplan
      obtain rfl := Except.ok.inj hplan
      obtain ⟨dimension, threshold, metric, hnative⟩ := native_of_tryPlanTopn htopn
      obtain ⟨hlimit, horder, houtputs⟩ := tryPlanTopn_spec.1 ⟨_, htopn⟩
      refine .inl ⟨.inr ⟨hguard.2, hguard.1.1.1, hlimit, dim, List.mem_singleton_self dim, rfl, horder, houtputs⟩, fun _ _ => ?_⟩
      rw [PlannedQuery.keeps, hnative]
    | none =>
      rw [htopn] at hplan
      refine .inr ⟨?_, hgroupby hplan⟩
      rintro (htime' | ⟨-, -, hlimit, dim', hdim, -, horder, houtputs⟩)
      · exact hnotime htime'
      · rw [List.mem_singleton.1 hdim] at houtputs
        obtain ⟨planned', hsome⟩ := tryPlanTopn_spec.2 ⟨hlimit, horder, houtputs⟩
        rw [hsome] at htopn
        cases htopn
  · refine .inr ⟨?_, hgroupby ?_⟩
    · rintro (htime' | ⟨hkey, hsets, hlimit, dim, -, hdims, ⟨order, horder, -⟩, -⟩)
      · exact hnotime htime'
      · refine hone ⟨dim, hdims, ?_⟩
        have hne : select.orderBy.isEmpty = false := by
          cases horders : select.orderBy with
          | nil =>
            rw [horders] at horder
            cases horder
          | cons _ _ => rfl
        simp [hkey, hsets, hlimit, hne]
    · rcases groupByDims with _ | ⟨dim, _ | ⟨dim', dims⟩⟩
      · exact hplan
      · have hguard := fun hguard => hone ⟨dim, rfl, hguard⟩
        simpa only [if_neg hguard] using hplan
      · exact hplan

end

/-! ## The condition -/

def funcOf (func : Utf8) : Option Func :=
  if func.bytes = ascii "COUNT" then some .count
  else if func.bytes = ascii "SUM" then some .sum
  else if func.bytes = ascii "MIN" then some .min
  else if func.bytes = ascii "MAX" then some .max
  else if func.bytes = ascii "AVG" then some .avg
  else none

def argumentOf : Option SqlExpr → Argument
  | none => .star
  | some (.literal (.integer n)) => .integer n
  | some (.column name) => .column name
  | some _ => .other

section

variable (planner : Planner) (projections : List Projection)

/-- The aggregate with a label. -/
def labelled (name : Utf8) : Option SelectExpr :=
  projections.findSome? fun projection =>
    match projection.expr with
    | .aggregate _ _ _ => if projection.label = some name then some projection.expr else none
    | _ => none

/-- The aggregate that one side of a comparison means. -/
def meant : SqlExpr → Option Meaning
  | .aggregate func arg distinct => (funcOf func).map fun func => meaning planner (.aggregate func (argumentOf arg) distinct)
  | .column name => (labelled projections name).map (meaning planner)
  | _ => none

/-- Comparisons of aggregates with integers below 2 to the 53, under AND and OR. -/
def IsCondition : SqlExpr → Prop
  | .binaryOp left _ (.literal (.integer k)) => (meant planner projections left).isSome = true ∧ k.toInt.natAbs < 2 ^ 53
  | .and l r => IsCondition l ∧ IsCondition r
  | .or l r => IsCondition l ∧ IsCondition r
  | _ => False

/-- A value that is no number compares with nothing. -/
def SqlCompares (op : BinaryOperator) (value : Json) (k : ℤ) : Prop :=
  ∃ n, sqlNumber value = some n ∧ comparesTo op n.units (F64.unitsOne * k)

def BoundKeptFor (op : BinaryOperator) (value : Json) (k : ℤ) : Prop := ∀ n, sqlNumber value = some n → BoundKept op n.units k

variable {Row : Type} (executor : Executor Row) (rows : List Row)

/-- The condition of SQL. -/
def ConditionHolds : SqlExpr → Prop
  | .binaryOp left op (.literal (.integer k)) =>
    ∃ m, meant planner projections left = some m ∧ SqlCompares op (executor.value rows m) k.toInt
  | .and l r => ConditionHolds l ∧ ConditionHolds r
  | .or l r => ConditionHolds l ∨ ConditionHolds r
  | _ => False

/-- The field under the name that a comparison looks up is the aggregate, and the bound
is kept for its value; or there is no such field, and SQL has the comparison fail; or
it is another one, whose value passes the moved bound when the aggregate's passes its own. -/
def Decided (planned : PlannedQuery) (left : SqlExpr) (op : BinaryOperator) (k : ℤ) (m : Meaning) : Prop :=
  ∀ name, havingAggName left = .ok name →
    match planned.event name with
    | none => ¬ SqlCompares op (executor.value rows m) k
    | some m' =>
      if m' = m then BoundKeptFor op (executor.value rows m) k
      else (∃ n, sqlNumber (executor.value rows m') = some n ∧ LoweredTo op n.units k) ↔ SqlCompares op (executor.value rows m) k

/-- Every comparison is decided as it is meant. -/
def Sound (planned : PlannedQuery) : SqlExpr → Prop
  | .binaryOp left op (.literal (.integer k)) => ∀ m, meant planner projections left = some m → Decided executor rows planned left op k.toInt m
  | .and l r => Sound planned l ∧ Sound planned r
  | .or l r => Sound planned l ∧ Sound planned r
  | _ => True

variable {planner projections} {planned : PlannedQuery} {spec : HavingSpec}

theorem comparison_iff {left : SqlExpr} {op : BinaryOperator} {k : Int64} {m : Meaning}
    (hk : k.toInt.natAbs < 2 ^ 53) (hspec : convertHaving (.binaryOp left op (.literal (.integer k))) = .ok spec)
    (hmeant : meant planner projections left = some m) :
    (spec.isMatch (planned.groupEvent executor rows) = true ↔
        ConditionHolds planner projections executor rows (.binaryOp left op (.literal (.integer k)))) ↔
      Decided executor rows planned left op k.toInt m := by
  obtain ⟨name, hname, hmatch⟩ := matches_comparison hk hspec
  have hholds : ConditionHolds planner projections executor rows (.binaryOp left op (.literal (.integer k))) ↔
      SqlCompares op (executor.value rows m) k.toInt := by simp [ConditionHolds, hmeant]
  have hdecided : Decided executor rows planned left op k.toInt m ↔
      match planned.event name with
      | none => ¬ SqlCompares op (executor.value rows m) k.toInt
      | some m' =>
        if m' = m then BoundKeptFor op (executor.value rows m) k.toInt
        else (∃ n, sqlNumber (executor.value rows m') = some n ∧ LoweredTo op n.units k.toInt) ↔
          SqlCompares op (executor.value rows m) k.toInt := by
    simp [Decided, hname]
  rw [hmatch, hholds, hdecided, PlannedQuery.groupEvent]
  cases hfield : planned.event name with
  | none => simp
  | some m' =>
    simp only [Option.map_some, Option.bind_some]
    split_ifs with hsame
    · subst hsame
      unfold SqlCompares BoundKeptFor
      cases hnumber : sqlNumber (executor.value rows m') with
      | none => simp
      | some n => simpa using loweredTo_iff op n.units k.toInt
    · exact Iff.rfl

theorem convertHaving_both {l r : SqlExpr} (join : HavingSpec → HavingSpec → HavingSpec)
    (h : (do let lh ← convertHaving l; let rh ← convertHaving r; .ok (join lh rh)) = .ok spec) :
    ∃ lh rh, convertHaving l = .ok lh ∧ convertHaving r = .ok rh ∧ spec = join lh rh := by
  obtain ⟨lh, hl, h⟩ := bind_eq_ok.1 h
  obtain ⟨rh, hr, h⟩ := bind_eq_ok.1 h
  exact ⟨lh, rh, hl, hr, (Except.ok.inj h).symm⟩

/-- By induction on the condition, one comparison at a time. -/
theorem matches_of_sound {expr : SqlExpr} (hform : IsCondition planner projections expr)
    (hspec : convertHaving expr = .ok spec) (hsound : Sound planner projections executor rows planned expr) :
    spec.isMatch (planned.groupEvent executor rows) = true ↔ ConditionHolds planner projections executor rows expr := by
  fun_induction IsCondition planner projections expr generalizing spec with
  | case1 left op k =>
    obtain ⟨m, hmeant⟩ := Option.isSome_iff_exists.1 hform.1
    exact (comparison_iff executor rows hform.2 hspec hmeant).2 (hsound m hmeant)
  | case2 l r ihl ihr =>
    obtain ⟨lh, rh, hl, hr, rfl⟩ := convertHaving_both (fun lh rh => .and [lh, rh]) hspec
    have hleft := ihl hform.1 hl hsound.1
    have hright := ihr hform.2 hr hsound.2
    simp [HavingSpec.isMatch, HavingSpec.allMatch, ConditionHolds, hleft, hright]
  | case3 l r ihl ihr =>
    obtain ⟨lh, rh, hl, hr, rfl⟩ := convertHaving_both (fun lh rh => .or [lh, rh]) hspec
    have hleft := ihl hform.1 hl hsound.1
    have hright := ihr hform.2 hr hsound.2
    simp [HavingSpec.isMatch, HavingSpec.anyMatch, ConditionHolds, hleft, hright]
  | case4 => exact hform.elim

end

/-! ## HAVING -/

/-- Where HAVING is not read, a group is right when SQL keeps it; where it is read, when
every comparison is decided as it is meant, and for a single comparison only then. -/
theorem having_keeps {planner : Planner} {timeKey : Bool} {select : Select} {filter : Option FilterSpec} {scanned : Scanned}
    {groupByDims : List Utf8} {planned : PlannedQuery} {having : SqlExpr}
    (hplan : planGrouped planner timeKey select filter scanned groupByDims = .ok planned) (hhaving : select.having = some having)
    (hform : IsCondition planner select.projections having) {Row : Type} (executor : Executor Row) (rows : List Row) :
    (SkipsHaving planner timeKey select scanned groupByDims →
      ((planned.keeps executor rows = true ↔ ConditionHolds planner select.projections executor rows having) ↔
        ConditionHolds planner select.projections executor rows having)) ∧
    (¬ SkipsHaving planner timeKey select scanned groupByDims →
      (Sound planner select.projections executor rows planned having →
        (planned.keeps executor rows = true ↔ ConditionHolds planner select.projections executor rows having)) ∧
      ∀ left op k m, having = .binaryOp left op (.literal (.integer k)) → meant planner select.projections left = some m →
        ((planned.keeps executor rows = true ↔ ConditionHolds planner select.projections executor rows having) ↔
          Decided executor rows planned left op k.toInt m)) := by
  rcases planGrouped_cases hplan hhaving with ⟨hskips, hkeeps⟩ | ⟨hreads, spec, hspec, hkeeps⟩
  · refine ⟨fun _ => ?_, fun hreads => absurd hskips hreads⟩
    rw [hkeeps executor rows]
    simp
  · refine ⟨fun hskips => absurd hskips hreads, fun _ => ?_⟩
    rw [hkeeps executor rows]
    refine ⟨fun hsound => matches_of_sound executor rows hform hspec hsound, ?_⟩
    rintro left op k m rfl hmeant
    exact comparison_iff executor rows hform.2 hspec hmeant

def cityColumn : Utf8 := ⟨ascii "city", Eq.refl true⟩

def cntName : Utf8 := ⟨ascii "cnt", Eq.refl true⟩

/-- `COUNT(*)` in a condition. -/
def countStar : SqlExpr := .aggregate ⟨ascii "COUNT", Eq.refl true⟩ none false

/-- `SELECT city, COUNT(*) AS label FROM sales GROUP BY city HAVING COUNT(*) op k`. -/
def countsByCity (label : Utf8) (op : BinaryOperator) (k : Int64) : Select where
  projections := [⟨.column cityColumn, none⟩, ⟨.aggregate .count .star false, some label⟩]
  filter := none
  groupBy := [.column cityColumn]
  groupingSets := none
  having := some (.binaryOp countStar op (.literal (.integer k)))
  orderBy := []
  limit := none

/-- The same with `ORDER BY label DESC LIMIT 10`. -/
def topCities (label : Utf8) (op : BinaryOperator) (k : Int64) : Select :=
  { countsByCity label op k with orderBy := [⟨.column label, false⟩], limit := some 10 }

def salesPlanner : Planner := ⟨⟨[], [], ⟨ascii "__time", Eq.refl true⟩⟩, false, false⟩

/-- Rows are counted, and nothing else is. -/
def counting : Executor Unit where
  key _ _ := .null
  aggregate _ rows := .ofU64 (.ofNat rows.length)
  constant _ := .null
  arithmetic _ _ _ := .null
  quotient _ _ := .null
  estimate _ := .null
  expression _ _ := .null

theorem having_keeps_counts :
    ∃ planned, planSelect salesPlanner (countsByCity cntName .gt 5) = .ok (.aggregating planned) ∧
      (planned.keeps counting (List.replicate 6 ()) = true ↔
        ConditionHolds salesPlanner (countsByCity cntName .gt 5).projections counting (List.replicate 6 ())
          (.binaryOp countStar .gt (.literal (.integer 5)))) := by
  refine ⟨_, rfl, ?_⟩
  have hkeeps := @having_keeps salesPlanner false (countsByCity cntName .gt 5) none
    ⟨{ specs := [⟨cntName, .count⟩], outputNames := [cntName] }, [⟨.column cityColumn, none⟩], [.dimension cityColumn cityColumn, .aggregate cntName]⟩
    [cityColumn] _ _ rfl rfl ⟨rfl, by decide⟩ Unit counting (List.replicate 6 ())
  refine (hkeeps.2 ?_).1 ?_
  · rintro (⟨hkey, -⟩ | ⟨-, -, hlimit, -⟩)
    · cases hkey
    · cases hlimit
  · rintro m ⟨⟩ name ⟨⟩
    exact fun n hn => trivial

/-- Five rows are not at least five, a count under another label is never found, and a
topN keeps all groups. -/
theorem groups_dropped :
    (∃ planned, planSelect salesPlanner (countsByCity cntName .gtEq 5) = .ok (.aggregating planned) ∧
      planned.keeps counting (List.replicate 5 ()) = false ∧
      ConditionHolds salesPlanner (countsByCity cntName .gtEq 5).projections counting (List.replicate 5 ())
        (.binaryOp countStar .gtEq (.literal (.integer 5)))) ∧
    (∃ planned, planSelect salesPlanner (countsByCity ⟨ascii "n", Eq.refl true⟩ .gt 1) = .ok (.aggregating planned) ∧
      planned.keeps counting (List.replicate 5 ()) = false ∧
      ConditionHolds salesPlanner (countsByCity ⟨ascii "n", Eq.refl true⟩ .gt 1).projections counting (List.replicate 5 ())
        (.binaryOp countStar .gt (.literal (.integer 1)))) ∧
    ∃ planned, planSelect salesPlanner (topCities cntName .gt 5) = .ok (.aggregating planned) ∧
      planned.keeps counting [()] = true ∧
      ¬ ConditionHolds salesPlanner (topCities cntName .gt 5).projections counting [()]
        (.binaryOp countStar .gt (.literal (.integer 5))) := by
  have hpos : (0 : ℤ) < F64.unitsOne := Int.natCast_pos.2 F64.unitsOne_pos
  refine ⟨⟨_, rfl, by decide +kernel, _, rfl, _, rfl, ?_⟩, ⟨_, rfl, by decide +kernel, _, rfl, _, rfl, ?_⟩, _, rfl, rfl, ?_⟩
  · exact le_rfl
  · exact Int.mul_lt_mul_of_pos_left (by decide) hpos
  · rintro ⟨m, hm, n, hn, hcompares⟩
    cases hm
    cases hn
    exact absurd (Int.lt_of_mul_lt_mul_left hcompares hpos.le) (by decide)

end Grouped

end FerroDruid.Sql
