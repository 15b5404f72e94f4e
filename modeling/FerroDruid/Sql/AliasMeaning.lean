import FerroDruid.Sql.GroupedPlan
/-!
# What an output column stands for

The names that the projections and their hidden aggregations are given, read off the
SELECT list, and that the scan of the projections gives these.
-/

namespace FerroDruid.Sql.Grouped

open Lib List

/-! ## Meanings -/

/-- What a field of a group stands for. -/
inductive Meaning where
  | column (name : Utf8)
  | aggregate (aggregate : Aggregate)
  | constant (value : Constant)
  | arithmetic (fn : BinaryOperator) (left right : Meaning)
  | quotient (dividend divisor : Meaning)
  | estimate (sketch : Meaning)
  /-- what no plan computes -/
  | expression (expr : SelectExpr)
  deriving DecidableEq

/-- The meanings of post-aggregations. -/
def Meaning.isComputed : Meaning → Bool
  | arithmetic _ _ _ | quotient _ _ | estimate _ => true
  | _ => false

/-- What is missing and what is null have no meaning. -/
abbrev Event := Utf8 → Option Meaning

def PostAggregatorSpec.evaluate (event : Event) : PostAggregatorSpec → Option Meaning
  | fieldAccess _ fieldName => event fieldName
  | constant _ value => some (.constant value)
  | arithmetic _ fn left right => do
    let left ← left.evaluate event
    let right ← right.evaluate event
    some (.arithmetic fn left right)
  | quotient _ dividend divisor => do
    let dividend ← event dividend
    let divisor ← event divisor
    some (.quotient dividend divisor)
  | hllSketchEstimate _ field => (field.evaluate event).map .estimate

namespace PlannedQuery

variable (planned : PlannedQuery)

/-- The dimensions of a group, then its aggregations. -/
def aggregated : Event :=
  writeAll (fun _ => none) (planned.dimensions.map (fun d => (d.outputName, some (.column d.dimension))) ++
    planned.aggregations.map fun spec => (spec.name, some (.aggregate spec.aggregate)))

/-- The post-aggregations, which read what there was before the first of them. -/
def event : Event := writeAll planned.aggregated (planned.postAggregations.map fun post => (post.name, post.evaluate planned.aggregated))

end PlannedQuery

section

variable (planner : Planner)

def avgMeaning (field : Utf8) : Meaning :=
  if planner.legacyNullMode then .arithmetic .divide (.aggregate (.doubleSum field)) (.aggregate (.countNotNull field))
  else .quotient (.aggregate (.doubleSum field)) (.aggregate (.countNotNull field))

def plainAggregate (func : Func) (arg : Argument) (distinct : Bool) : Option Aggregate :=
  match lowerAggregate planner (some planner.schema) func arg distinct with
  | .ok aggregate => aggregate
  | .error _ => none

def operandMeaning : SelectExpr → Meaning
  | .column name => .column name
  | .constant value => .constant value
  | .aggregate func arg distinct =>
    match plainAggregate planner func arg distinct with
    | some aggregate => .aggregate aggregate
    | none =>
      match func, arg with
      | .avg, .column field => avgMeaning planner field
      | .count, .column field => .estimate (.aggregate (.hllSketchBuild field))
      | _, _ => .expression (.aggregate func arg distinct)
  | .binaryOp left op right => .arithmetic op (operandMeaning left) (operandMeaning right)

/-- Neither a column nor arithmetic without an aggregate is lowered. -/
def meaning : SelectExpr → Meaning
  | .constant value => .expression (.constant value)
  | .binaryOp left op right =>
    if containsAggregate left || containsAggregate right then operandMeaning planner (.binaryOp left op right)
    else .expression (.binaryOp left op right)
  | expr => operandMeaning planner expr

/-! ## Names -/

/-- How many names an operand is given. -/
def ticks : SelectExpr → ℕ
  | .column _ => 0
  | .constant _ => 1
  | .aggregate .avg _ _ => 2
  | .aggregate .count _ true => if planner.exactCountDistinct then 1 else 2
  | .aggregate _ _ _ => 1
  | .binaryOp left _ right => ticks left + ticks right + 1

def avgHelpers (n : ℕ) (field : Utf8) : List AggregatorSpec :=
  [⟨hiddenName .avgSum n, .doubleSum field⟩, ⟨hiddenName .avgCount n, .countNotNull field⟩]

/-- The hidden aggregations of an operand, named from a number on. -/
def operandHelpers (n : ℕ) : SelectExpr → List AggregatorSpec
  | .column _ | .constant _ => []
  | .aggregate .avg (.column field) _ => avgHelpers (n + 1) field
  | .aggregate .count (.column field) true =>
    if planner.exactCountDistinct then [⟨hiddenName .card n, .cardinality field⟩] else [⟨hiddenName .hll (n + 1), .hllSketchBuild field⟩]
  | .aggregate func arg distinct => ((plainAggregate planner func arg distinct).map fun aggregate => ⟨hiddenName .agg n, aggregate⟩).toList
  | .binaryOp left _ right => operandHelpers n left ++ operandHelpers (n + ticks planner left) right

/-- A projection with its output name, the visible aggregation it is, or the hidden ones
that it needs. -/
structure Entry where
  projection : Projection
  name : Utf8
  plain : Option Aggregate
  helpers : List AggregatorSpec

/-- The entry of a projection after `index` visible aggregations and `n` numbered names,
and how many more of these it uses. -/
def entry (index n : ℕ) (projection : Projection) : Entry × ℕ :=
  match projection.expr with
  | .column name => (⟨projection, projection.label.getD name, none, []⟩, 0)
  | .constant _ => (⟨projection, projection.label.getD unsupportedProjection, none, []⟩, 0)
  | .aggregate func arg distinct =>
    match plainAggregate planner func arg distinct with
    | some aggregate => (⟨projection, aggregateName projection.label index arg distinct, some aggregate, []⟩, 0)
    | none =>
      match func, arg with
      | .avg, .column field => (⟨projection, projection.label.getD (avgName field), none, avgHelpers n field⟩, 1)
      | .count, .column field => (⟨projection, projection.label.getD (countDistinctName field), none, [⟨hiddenName .hll n, .hllSketchBuild field⟩]⟩, 1)
      | _, _ => (⟨projection, projection.label.getD unsupportedProjection, none, []⟩, 0)
  | .binaryOp left _ right =>
    if containsAggregate left || containsAggregate right then
      let used := ticks planner left + ticks planner right
      (⟨projection, projection.label.getD (exprName (n + used)), none, operandHelpers planner n left ++
        operandHelpers planner (n + ticks planner left) right⟩,
        if projection.label.isNone then used + 1 else used)
    else (⟨projection, projection.label.getD unsupportedProjection, none, []⟩, 0)

def entries : ℕ → ℕ → List Projection → List Entry
  | _, _, [] => []
  | index, n, projection :: projections =>
    let next := entry planner index n projection
    next.1 :: entries (if next.1.plain.isSome then index + 1 else index) (n + next.2) projections

end

namespace Entry

/-- A column, or what no plan computes. -/
def isDimension (e : Entry) : Bool :=
  match e.projection.expr with
  | .column _ | .constant _ => true
  | .aggregate func arg _ =>
    e.plain.isNone && (match func, arg with
      | .avg, _ | .count, .column _ => false
      | _, _ => true)
  | .binaryOp left _ right => !(containsAggregate left || containsAggregate right)

def isComputed (e : Entry) : Bool := e.plain.isNone && !e.isDimension

def spec? (e : Entry) : Option AggregatorSpec := e.plain.map fun aggregate => ⟨e.name, aggregate⟩

def item (e : Entry) : SelectOutputItem := if e.isDimension then dimensionItem e.projection else .aggregate e.name

end Entry

/-! ## Lowering gives the names and computes the meaning -/

/-- The fields of aggregations are what these stand for. -/
def Event.Holds (event : Event) (specs : List AggregatorSpec) : Prop := ∀ spec ∈ specs, event spec.name = some (.aggregate spec.aggregate)

theorem Event.holds_append {event : Event} {specs specs' : List AggregatorSpec} : event.Holds (specs ++ specs') ↔
    event.Holds specs ∧ event.Holds specs' :=
  forall_mem_append

variable {planner : Planner}

theorem aggregateName_some (name : Utf8) (index : ℕ) (arg : Argument) (distinct : Bool) : aggregateName (some name) index arg distinct = name := by
  unfold aggregateName
  split <;> rfl

variable {func : Func} {arg : Argument} {distinct : Bool}

theorem tryAsAggregation_ok {label : Option Utf8} {index : ℕ} {spec : Option AggregatorSpec}
    (h : tryAsAggregation planner (some planner.schema) label index (.aggregate func arg distinct) = .ok spec) :
    spec = (plainAggregate planner func arg distinct).map fun aggregate => ⟨aggregateName label index arg distinct, aggregate⟩ := by
  obtain ⟨aggregate, haggregate, h⟩ := bind_eq_ok.1 h
  cases h
  rw [plainAggregate, haggregate]

/-- What lowering adds. -/
def AggProjections.advance (aggs : AggProjections) (specs : List AggregatorSpec) (used : ℕ) : AggProjections :=
  { aggs with hiddenSpecs := aggs.hiddenSpecs ++ specs, hiddenSeq := aggs.hiddenSeq + used }

theorem lowerAvg_spec (aggs : AggProjections) (field name : Utf8) :
    (aggs.lowerAvg planner field name).2 = aggs.advance (avgHelpers aggs.hiddenSeq field) 1 ∧
      (aggs.lowerAvg planner field name).1.name = name ∧
      ∀ event : Event, event.Holds (avgHelpers aggs.hiddenSeq field) →
        (aggs.lowerAvg planner field name).1.evaluate event = some (avgMeaning planner field) := by
  have hread : ∀ event : Event, event.Holds (avgHelpers aggs.hiddenSeq field) →
      event (hiddenName .avgSum aggs.hiddenSeq) = some (.aggregate (.doubleSum field)) ∧
        event (hiddenName .avgCount aggs.hiddenSeq) = some (.aggregate (.countNotNull field)) := by
    intro event h
    exact ⟨h _ mem_cons_self, h _ (mem_cons_of_mem _ mem_cons_self)⟩
  unfold AggProjections.lowerAvg avgMeaning
  cases planner.legacyNullMode with
  | true =>
    refine ⟨rfl, rfl, fun event h => ?_⟩
    obtain ⟨hsum, hcount⟩ := hread event h
    simp [PostAggregatorSpec.evaluate, hsum, hcount]
  | false =>
    refine ⟨rfl, rfl, fun event h => ?_⟩
    obtain ⟨hsum, hcount⟩ := hread event h
    simp [PostAggregatorSpec.evaluate, hsum, hcount]

theorem lowerCountDistinct_spec (aggs : AggProjections) (field name : Utf8) :
    (aggs.lowerCountDistinct field name).2 = aggs.advance [⟨hiddenName .hll aggs.hiddenSeq, .hllSketchBuild field⟩] 1 ∧
      (aggs.lowerCountDistinct field name).1.name = name ∧
      ∀ event : Event, event.Holds [⟨hiddenName .hll aggs.hiddenSeq, .hllSketchBuild field⟩] →
        (aggs.lowerCountDistinct field name).1.evaluate event = some (.estimate (.aggregate (.hllSketchBuild field))) := by
  refine ⟨rfl, rfl, fun event h => ?_⟩
  have hsketch := h _ mem_cons_self
  simp only [AggProjections.lowerCountDistinct, PostAggregatorSpec.evaluate, hsketch, Option.map_some]

theorem plainAggregate_avg (arg : Argument) (distinct : Bool) : plainAggregate planner .avg arg distinct = none := by
  cases distinct <;> cases arg <;> rfl

variable (field : Utf8)

theorem plainAggregate_count_distinct :
    plainAggregate planner .count (.column field) true = if planner.exactCountDistinct then some (.cardinality field) else none :=
  rfl

variable {aggs aggs' : AggProjections}

/-- An operand that is an aggregation becomes a hidden one. -/
theorem aggOperand_spec {post : PostAggregatorSpec} (h : (do
      match ← tryAsAggregation planner (some planner.schema) (some (hiddenName .agg aggs.hiddenSeq)) 0 (.aggregate func arg distinct) with
      | some spec =>
        Except.ok (PostAggregatorSpec.fieldAccess (hiddenName .agg aggs.hiddenSeq) (hiddenName .agg aggs.hiddenSeq),
          (aggs.freshHiddenName .agg).2.pushHidden spec)
      | none => Except.error PlanError.operand) = Except.ok (post, aggs')) :
    ∃ aggregate, plainAggregate planner func arg distinct = some aggregate ∧
      aggs' = aggs.advance [⟨hiddenName .agg aggs.hiddenSeq, aggregate⟩] 1 ∧
      ∀ event : Event, event.Holds [⟨hiddenName .agg aggs.hiddenSeq, aggregate⟩] → post.evaluate event = some (.aggregate aggregate) := by
  obtain ⟨spec, hspec, h⟩ := bind_eq_ok.1 h
  rw [tryAsAggregation_ok hspec] at h
  cases hplain : plainAggregate planner func arg distinct with
  | none =>
    rw [hplain] at h
    cases h
  | some aggregate =>
    rw [hplain, Option.map_some] at h
    simp only [aggregateName_some] at h
    cases h
    exact ⟨aggregate, rfl, rfl, fun event h => h _ mem_cons_self⟩

theorem operand_of_plain {aggregate : Aggregate} (n : ℕ) (hfunc : func ≠ .avg)
    (hdistinct : ¬(func = .count ∧ distinct = true)) (h : plainAggregate planner func arg distinct = some aggregate) :
    operandHelpers planner n (.aggregate func arg distinct) = [⟨hiddenName .agg n, aggregate⟩] ∧ ticks planner (.aggregate func arg distinct) = 1 ∧
      operandMeaning planner (.aggregate func arg distinct) = .aggregate aggregate := by
  have hmeaning : operandMeaning planner (.aggregate func arg distinct) = .aggregate aggregate := by simp only [operandMeaning, h]
  have hhelpers : operandHelpers planner n (.aggregate func arg distinct) = [⟨hiddenName .agg n, aggregate⟩] := by
    cases func with
    | avg => exact absurd rfl hfunc
    | count =>
      cases distinct with
      | true => exact absurd ⟨rfl, rfl⟩ hdistinct
      | false => cases arg <;> simp [operandHelpers, h]
    | sum => simp only [operandHelpers, h, Option.map_some, Option.toList_some]
    | min => simp only [operandHelpers, h, Option.map_some, Option.toList_some]
    | max => simp only [operandHelpers, h, Option.map_some, Option.toList_some]
  refine ⟨hhelpers, ?_, hmeaning⟩
  cases func <;> cases distinct <;> first | rfl | exact absurd rfl hfunc | exact absurd ⟨rfl, rfl⟩ hdistinct

theorem lowerPostAggOperand_spec {e : SelectExpr} {post : PostAggregatorSpec}
    (h : lowerPostAggOperand planner e aggs = .ok (post, aggs')) :
    aggs' = aggs.advance (operandHelpers planner aggs.hiddenSeq e) (ticks planner e) ∧
      ∀ event : Event, event.Holds (operandHelpers planner aggs.hiddenSeq e) → post.evaluate event = some (operandMeaning planner e) := by
  induction e generalizing aggs aggs' post with
  | column name => cases h
  | constant value =>
    cases value with
    | integer n =>
      cases h
      exact ⟨by simp [AggProjections.advance, operandHelpers, ticks], fun _ _ => rfl⟩
    | float x =>
      rw [lowerPostAggOperand] at h
      split_ifs at h
      cases h
      exact ⟨by simp [AggProjections.advance, operandHelpers, ticks], fun _ _ => rfl⟩
  | aggregate func arg distinct =>
    by_cases havg : func = .avg
    · subst havg
      cases distinct with
      | true => cases h
      | false =>
        cases arg with
        | column field =>
          obtain ⟨haggs, -, heval⟩ := @lowerAvg_spec planner (aggs.freshHiddenName .avg).2 field (hiddenName .avg aggs.hiddenSeq)
          obtain ⟨rfl, rfl⟩ := Prod.mk.inj (Except.ok.inj h)
          refine ⟨haggs.trans (by simp only [AggProjections.advance, AggProjections.freshHiddenName, operandHelpers, ticks, Nat.add_assoc]), ?_⟩
          exact heval
        | _ => cases h
    · by_cases hdistinct : func = .count ∧ distinct = true
      · obtain ⟨rfl, rfl⟩ := hdistinct
        cases arg with
        | column field =>
          have hplain := @plainAggregate_count_distinct planner field
          cases hexact : planner.exactCountDistinct with
          | true =>
            simp only [lowerPostAggOperand, hexact, if_true] at h
            cases h
            simp only [operandHelpers, ticks, operandMeaning, hplain, hexact, if_true]
            exact ⟨rfl, fun event hholds => hholds _ mem_cons_self⟩
          | false =>
            simp only [lowerPostAggOperand, hexact, Bool.false_eq_true, if_false] at h
            obtain ⟨haggs, -, heval⟩ := lowerCountDistinct_spec (aggs.freshHiddenName .cd).2 field (hiddenName .cd aggs.hiddenSeq)
            obtain ⟨rfl, rfl⟩ := Prod.mk.inj (Except.ok.inj h)
            simp only [operandHelpers, ticks, operandMeaning, hplain, hexact, Bool.false_eq_true, if_false]
            exact ⟨haggs.trans (by simp only [AggProjections.advance, AggProjections.freshHiddenName, Nat.add_assoc]), heval⟩
        | _ => cases h
      · have hagg : ∃ aggregate, plainAggregate planner func arg distinct = some aggregate ∧
            aggs' = aggs.advance [⟨hiddenName .agg aggs.hiddenSeq, aggregate⟩] 1 ∧
            ∀ event : Event, event.Holds [⟨hiddenName .agg aggs.hiddenSeq, aggregate⟩] → post.evaluate event = some (.aggregate aggregate) := by
          cases func with
          | avg => exact absurd rfl havg
          | count =>
            cases distinct with
            | true => exact absurd ⟨rfl, rfl⟩ hdistinct
            | false => exact aggOperand_spec h
          | sum => exact aggOperand_spec h
          | min => exact aggOperand_spec h
          | max => exact aggOperand_spec h
        obtain ⟨aggregate, hplain, rfl, heval⟩ := hagg
        obtain ⟨hhelpers, hticks, hmeaning⟩ := operand_of_plain aggs.hiddenSeq havg hdistinct hplain
        rw [hhelpers, hticks, hmeaning]
        exact ⟨rfl, heval⟩
  | binaryOp left op right ihleft ihright =>
    rw [lowerPostAggOperand] at h
    split_ifs at h
    obtain ⟨⟨lhs, aggs1⟩, hlhs, h⟩ := bind_eq_ok.1 h
    obtain ⟨⟨rhs, aggs2⟩, hrhs, h⟩ := bind_eq_ok.1 h
    cases h
    obtain ⟨rfl, hevall⟩ := ihleft hlhs
    obtain ⟨rfl, hevalr⟩ := ihright hrhs
    refine ⟨by simp [AggProjections.advance, operandHelpers, ticks, Nat.add_assoc], fun event hholds => ?_⟩
    rw [operandHelpers, Event.holds_append] at hholds
    simp only [PostAggregatorSpec.evaluate, hevall event hholds.1, hevalr event hholds.2]
    rfl

/-! ## The scan -/

/-- A post-aggregation is a projection's: from what its helpers are, it computes its meaning. -/
structure Computes (planner : Planner) (post : PostAggregatorSpec) (e : Entry) : Prop where
  name : post.name = e.name
  evaluate : ∀ event : Event, event.Holds e.helpers → post.evaluate event = some (meaning planner e.projection.expr)
  computed : (meaning planner e.projection.expr).isComputed

/-- What a scan adds for the entries of projections. -/
structure Scans (planner : Planner) (scanned : Scanned) (es : List Entry) (scanned' : Scanned) : Prop where
  specs : scanned'.aggs.specs = scanned.aggs.specs ++ es.filterMap Entry.spec?
  hiddenSpecs : scanned'.aggs.hiddenSpecs = scanned.aggs.hiddenSpecs ++ es.flatMap Entry.helpers
  postAggs : ∃ posts, scanned'.aggs.postAggs = scanned.aggs.postAggs ++ posts ∧ List.Forall₂ (Computes planner) posts (es.filter Entry.isComputed)
  outputNames : scanned'.aggs.outputNames = scanned.aggs.outputNames ++ (es.filter fun e => !e.isDimension).map Entry.name
  dimensionExprs : scanned'.dimensionExprs = scanned.dimensionExprs ++ (es.filter Entry.isDimension).map Entry.projection
  selectItems : scanned'.selectItems = scanned.selectItems ++ es.map Entry.item

theorem Scans.refl (scanned : Scanned) : Scans planner scanned [] scanned where
  specs := (append_nil _).symm
  hiddenSpecs := (append_nil _).symm
  postAggs := ⟨[], (append_nil _).symm, .nil⟩
  outputNames := (append_nil _).symm
  dimensionExprs := (append_nil _).symm
  selectItems := (append_nil _).symm

theorem Scans.trans {scanned scanned' scanned'' : Scanned} {es es' : List Entry} (h : Scans planner scanned es scanned')
    (h' : Scans planner scanned' es' scanned'') : Scans planner scanned (es ++ es') scanned'' where
  specs := by rw [h'.specs, h.specs, append_assoc, filterMap_append]
  hiddenSpecs := by rw [h'.hiddenSpecs, h.hiddenSpecs, append_assoc, flatMap_append]
  postAggs := by
    obtain ⟨posts, hposts, hall⟩ := h.postAggs
    obtain ⟨posts', hposts', hall'⟩ := h'.postAggs
    refine ⟨posts ++ posts', by rw [hposts', hposts, append_assoc], ?_⟩
    rw [filter_append]
    exact rel_append hall hall'
  outputNames := by rw [h'.outputNames, h.outputNames, append_assoc, filter_append, map_append]
  dimensionExprs := by rw [h'.dimensionExprs, h.dimensionExprs, append_assoc, filter_append, map_append]
  selectItems := by rw [h'.selectItems, h.selectItems, append_assoc, map_append]

/-- One projection: its entry, and where the next one's names begin. -/
def Steps (planner : Planner) (scanned : Scanned) (next : Entry × ℕ) (scanned' : Scanned) : Prop :=
  Scans planner scanned [next.1] scanned' ∧
    scanned'.aggs.specs.length = (if next.1.plain.isSome then scanned.aggs.specs.length + 1 else scanned.aggs.specs.length) ∧
    scanned'.aggs.hiddenSeq = scanned.aggs.hiddenSeq + next.2

variable {scanned scanned' : Scanned} {projection : Projection} {e : Entry}

theorem steps_plain {spec : AggregatorSpec} (hspec : e.spec? = some spec) (hhelpers : e.helpers = []) (hdimension : e.isDimension = false)
    (hscanned : scanned' = { scanned with
      aggs := { scanned.aggs with specs := scanned.aggs.specs ++ [spec], outputNames := scanned.aggs.outputNames ++ [spec.name] }
      selectItems := scanned.selectItems ++ [.aggregate spec.name] }) : Steps planner scanned (e, 0) scanned' := by
  obtain ⟨aggregate, hplain, rfl⟩ := Option.map_eq_some_iff.1 hspec
  have hcomputed : e.isComputed = false := by rw [Entry.isComputed, hplain]; rfl
  rw [hscanned]
  refine ⟨⟨?_, ?_, ⟨[], (append_nil _).symm, ?_⟩, ?_, ?_, ?_⟩, ?_, rfl⟩
  · simp [hspec]
  · simp [hhelpers]
  · simp [hcomputed]
  · simp [hdimension]
  · simp [hdimension]
  · simp [Entry.item, hdimension]
  · simp [hplain]

theorem steps_computed {post : PostAggregatorSpec} {used : ℕ} {sources : List (Utf8 × Utf8)} (hplain : e.plain = none)
    (hdimension : e.isDimension = false) (hpost : Computes planner post e)
    (hscanned : scanned' = { scanned with
      aggs := { scanned.aggs.advance e.helpers used with
        postAggs := scanned.aggs.postAggs ++ [post]
        outputNames := scanned.aggs.outputNames ++ [post.name]
        avgSources := sources }
      selectItems := scanned.selectItems ++ [.aggregate post.name] }) : Steps planner scanned (e, used) scanned' := by
  have hcomputed : e.isComputed = true := by rw [Entry.isComputed, hplain, hdimension]; rfl
  rw [hscanned]
  refine ⟨⟨?_, ?_, ⟨[post], rfl, ?_⟩, ?_, ?_, ?_⟩, ?_, rfl⟩
  · simp [Entry.spec?, hplain, AggProjections.advance]
  · simp [AggProjections.advance]
  · simp [hcomputed, hpost]
  · simp [hdimension, hpost.name]
  · simp [hdimension]
  · simp [Entry.item, hdimension, hpost.name]
  · simp [hplain, AggProjections.advance]

theorem steps_dimension (hplain : e.plain = none) (hhelpers : e.helpers = []) (hdimension : e.isDimension = true)
    (hscanned : scanned' = { scanned with
      dimensionExprs := scanned.dimensionExprs ++ [e.projection]
      selectItems := scanned.selectItems ++ [dimensionItem e.projection] }) : Steps planner scanned (e, 0) scanned' := by
  have hcomputed : e.isComputed = false := by rw [Entry.isComputed, hplain, hdimension]; rfl
  rw [hscanned]
  refine ⟨⟨?_, ?_, ⟨[], (append_nil _).symm, ?_⟩, ?_, ?_, ?_⟩, ?_, rfl⟩
  · simp [Entry.spec?, hplain]
  · simp [hhelpers]
  · simp [hcomputed]
  · simp [hdimension]
  · simp [hdimension]
  · simp [Entry.item, hdimension]
  · simp [hplain]

theorem avgMeaning_isComputed : (avgMeaning planner field).isComputed := by
  unfold avgMeaning
  split <;> rfl

theorem meaning_of_avg (distinct : Bool) : meaning planner (.aggregate .avg (.column field) distinct) = avgMeaning planner field := by
  simp only [meaning, operandMeaning, plainAggregate_avg]

theorem lowerAvg_computes (aggs : AggProjections) (label : Option Utf8) (field name : Utf8) (distinct : Bool) :
    Computes planner (aggs.lowerAvg planner field name).1
      ⟨⟨.aggregate .avg (.column field) distinct, label⟩, name, none, avgHelpers aggs.hiddenSeq field⟩ := by
  obtain ⟨-, hname, heval⟩ := @lowerAvg_spec planner aggs field name
  refine ⟨hname, fun event h => ?_, ?_⟩
  · rw [meaning_of_avg]
    exact heval event h
  · rw [meaning_of_avg]
    exact avgMeaning_isComputed field

theorem lowerCountDistinct_computes (aggs : AggProjections) (label : Option Utf8) {field : Utf8} (name : Utf8)
    (hplain : plainAggregate planner .count (.column field) distinct = none) :
    Computes planner (aggs.lowerCountDistinct field name).1
      ⟨⟨.aggregate .count (.column field) distinct, label⟩, name, none, [⟨hiddenName .hll aggs.hiddenSeq, .hllSketchBuild field⟩]⟩ := by
  obtain ⟨-, hname, heval⟩ := lowerCountDistinct_spec aggs field name
  have hmeaning : meaning planner (.aggregate .count (.column field) distinct) = .estimate (.aggregate (.hllSketchBuild field)) := by
    simp only [meaning, operandMeaning, hplain]
  refine ⟨hname, fun event h => ?_, ?_⟩
  · rw [hmeaning]
    exact heval event h
  · rw [hmeaning]
    rfl

/-- What `tryAsPostAggregation` gives for a projection with an entry. -/
def Lowered (planner : Planner) (aggs : AggProjections) (next : Entry × ℕ) : Option PostAggregatorSpec → AggProjections → Prop
  | some post, aggs' => next.1.isDimension = false ∧ Computes planner post next.1 ∧
    ∃ sources, aggs' = { aggs.advance next.1.helpers next.2 with avgSources := sources }
  | none, aggs' => next.1.isDimension = true ∧ next.1.helpers = [] ∧ next.2 = 0 ∧ aggs' = aggs

variable {post : Option PostAggregatorSpec}

theorem lowered_aggregate {label : Option Utf8} (index : ℕ) (hplain : plainAggregate planner func arg distinct = none)
    (hcount : func = .count → distinct = false → False)
    (h : tryAsPostAggregation planner label (.aggregate func arg distinct) aggs = .ok (post, aggs')) :
    Lowered planner aggs (entry planner index aggs.hiddenSeq ⟨.aggregate func arg distinct, label⟩) post aggs' := by
  cases func with
  | avg =>
    cases distinct with
    | true => cases h
    | false =>
      cases arg with
      | column field =>
        obtain ⟨haggs, -, -⟩ := @lowerAvg_spec planner aggs field (label.getD (avgName field))
        replace h : (some (aggs.lowerAvg planner field (label.getD (avgName field))).1,
            { (aggs.lowerAvg planner field (label.getD (avgName field))).2 with
              avgSources := (aggs.lowerAvg planner field (label.getD (avgName field))).2.avgSources ++ [(field, label.getD (avgName field))] }) =
              (post, aggs') := Except.ok.inj h
        rw [haggs] at h
        obtain ⟨rfl, rfl⟩ := Prod.mk.inj h
        exact ⟨rfl, lowerAvg_computes aggs label field (label.getD (avgName field)) false, _, rfl⟩
      | _ => cases h
  | count =>
    cases distinct with
    | false => exact (hcount rfl rfl).elim
    | true =>
      cases arg with
      | column field =>
        cases h
        simp only [entry, hplain]
        exact ⟨rfl, lowerCountDistinct_computes aggs label (label.getD (countDistinctName field)) hplain, _, rfl⟩
      | _ => cases h
  | _ =>
    cases h
    simp only [entry, hplain]
    exact ⟨rfl, rfl, rfl, rfl⟩

theorem lowered_binaryOp {left right : SelectExpr} {op : BinaryOperator} {label : Option Utf8} (index : ℕ)
    (h : tryAsPostAggregation planner label (.binaryOp left op right) aggs = .ok (post, aggs')) :
    Lowered planner aggs (entry planner index aggs.hiddenSeq ⟨.binaryOp left op right, label⟩) post aggs' := by
  rw [tryAsPostAggregation] at h
  cases haggregate : (containsAggregate left || containsAggregate right) with
  | false =>
    simp only [haggregate, Bool.false_eq_true, if_false] at h
    cases h
    simp only [entry, haggregate, Bool.false_eq_true, if_false]
    refine ⟨?_, rfl, rfl, rfl⟩
    simp only [Entry.isDimension, haggregate, Bool.not_false]
  | true =>
    split_ifs at h
    obtain ⟨⟨lhs, aggs1⟩, hlhs, h⟩ := bind_eq_ok.1 h
    obtain ⟨⟨rhs, aggs2⟩, hrhs, h⟩ := bind_eq_ok.1 h
    obtain ⟨rfl, hevall⟩ := lowerPostAggOperand_spec hlhs
    obtain ⟨rfl, hevalr⟩ := lowerPostAggOperand_spec hrhs
    have hmeaning : meaning planner (.binaryOp left op right) = .arithmetic op (operandMeaning planner left) (operandMeaning planner right) := by
      simp only [meaning, haggregate, if_true, operandMeaning]
    have hcomputed : (meaning planner (.binaryOp left op right)).isComputed := by
      rw [hmeaning]
      rfl
    have heval : ∀ (name : Utf8) (event : Event),
        event.Holds (operandHelpers planner aggs.hiddenSeq left ++ operandHelpers planner (aggs.hiddenSeq + ticks planner left) right) →
        (PostAggregatorSpec.arithmetic name op lhs rhs).evaluate event = some (meaning planner (.binaryOp left op right)) := by
      intro name event hholds
      rw [Event.holds_append] at hholds
      have hl : lhs.evaluate event = _ := hevall event hholds.1
      have hr : rhs.evaluate event = _ := hevalr event hholds.2
      rw [hmeaning]
      simp only [PostAggregatorSpec.evaluate, hl, hr]
      rfl
    have hdimension : (Entry.mk ⟨.binaryOp left op right, label⟩
      (label.getD (exprName (aggs.hiddenSeq + (ticks planner left + ticks planner right)))) none
        (operandHelpers planner aggs.hiddenSeq left ++ operandHelpers planner (aggs.hiddenSeq + ticks planner left) right)).isDimension = false := by
      simp only [Entry.isDimension, haggregate, Bool.not_true]
    simp only [entry, haggregate, if_true]
    cases label with
    | some name =>
      obtain ⟨rfl, rfl⟩ := Prod.mk.inj (Except.ok.inj h)
      refine ⟨hdimension, ⟨rfl, heval name, hcomputed⟩, aggs.avgSources, ?_⟩
      simp [AggProjections.advance, Nat.add_assoc]
    | none =>
      obtain ⟨rfl, rfl⟩ := Prod.mk.inj (Except.ok.inj h)
      refine ⟨hdimension, ⟨?_, heval _, hcomputed⟩, aggs.avgSources, ?_⟩
      · simp [PostAggregatorSpec.name, AggProjections.freshOutputName, AggProjections.advance, Nat.add_assoc]
      · simp [AggProjections.freshOutputName, AggProjections.advance, Nat.add_assoc]

theorem entry_projection (index n : ℕ) (projection : Projection) : (entry planner index n projection).1.projection = projection := by
  unfold entry
  split
  · rfl
  · rfl
  · split
    · rfl
    · split <;> rfl
  · split <;> rfl

theorem entry_plain_of_none (label : Option Utf8) (index n : ℕ)
    (hplain : plainAggregate planner func arg distinct = none) : (entry planner index n ⟨.aggregate func arg distinct, label⟩).1.plain = none := by
  simp only [entry, hplain]
  split <;> rfl

theorem entry_plain_binaryOp (left : SelectExpr) (op : BinaryOperator) (right : SelectExpr) (label : Option Utf8) (index n : ℕ) :
    (entry planner index n ⟨.binaryOp left op right, label⟩).1.plain = none := by
  simp only [entry]
  split <;> rfl

theorem steps_lowered {next : Entry × ℕ} (hplain : next.1.plain = none)
    (hprojection : next.1.projection = projection) (hpost : Lowered planner scanned.aggs next post aggs)
    (h : (match (post, aggs) with
      | (some post, aggs) =>
        Except.ok { scanned with
          aggs := { aggs with postAggs := aggs.postAggs ++ [post], outputNames := aggs.outputNames ++ [post.name] }
          selectItems := scanned.selectItems ++ [SelectOutputItem.aggregate post.name] }
      | (none, aggs) =>
        (Except.ok { aggs := aggs, dimensionExprs := scanned.dimensionExprs ++ [projection], selectItems :=
          scanned.selectItems ++ [dimensionItem projection] } :
          Except PlanError Scanned)) = .ok scanned') : Steps planner scanned next scanned' := by
  subst hprojection
  cases post with
  | some post =>
    obtain ⟨hdimension, hcomputes, sources, rfl⟩ := hpost
    cases h
    exact steps_computed hplain hdimension hcomputes rfl
  | none =>
    obtain ⟨hdimension, hhelpers, hused, rfl⟩ := hpost
    cases h
    obtain ⟨e, used⟩ := next
    obtain rfl : used = 0 := hused
    exact steps_dimension hplain hhelpers hdimension rfl

/-- One projection is scanned into its entry. -/
theorem scanProjection_steps (h : scanProjection planner scanned projection = .ok scanned') :
    Steps planner scanned (entry planner scanned.aggs.specs.length scanned.aggs.hiddenSeq projection) scanned' := by
  obtain ⟨spec, hspec, h⟩ := bind_eq_ok.1 h
  obtain ⟨expr, label⟩ := projection
  cases expr with
  | column name =>
    cases hspec
    cases h
    exact steps_dimension rfl rfl rfl rfl
  | constant value =>
    cases hspec
    cases h
    exact steps_dimension rfl rfl rfl rfl
  | aggregate func arg distinct =>
    obtain rfl := tryAsAggregation_ok hspec
    cases hplain : plainAggregate planner func arg distinct with
    | some aggregate =>
      rw [hplain, Option.map_some] at h
      cases h
      simp only [entry, hplain]
      exact steps_plain rfl rfl rfl rfl
    | none =>
      rw [hplain, Option.map_none] at h
      obtain ⟨⟨post, aggs⟩, hpost, h⟩ := bind_eq_ok.1 h
      have hcount : func = .count → distinct = false → False := by
        rintro rfl rfl
        cases arg with
        | other => cases hspec
        | _ => cases hplain
      exact steps_lowered (entry_plain_of_none label _ _ hplain) (entry_projection _ _ _)
        (lowered_aggregate scanned.aggs.specs.length hplain hcount hpost) h
  | binaryOp left op right =>
    cases hspec
    obtain ⟨⟨post, aggs⟩, hpost, h⟩ := bind_eq_ok.1 h
    exact steps_lowered (entry_plain_binaryOp left op right label _ _) (entry_projection _ _ _) (lowered_binaryOp scanned.aggs.specs.length hpost) h

theorem scanProjections_from {projections : List Projection} (h : projections.foldlM (scanProjection planner) scanned = .ok scanned') :
    Scans planner scanned (entries planner scanned.aggs.specs.length scanned.aggs.hiddenSeq projections) scanned' := by
  induction projections generalizing scanned with
  | nil =>
    cases h
    exact .refl _
  | cons projection projections ih =>
    obtain ⟨next, hnext, h⟩ := bind_eq_ok.1 h
    obtain ⟨hscans, hspecs, hseq⟩ := scanProjection_steps hnext
    have hrest := ih h
    rw [hspecs, hseq] at hrest
    exact hscans.trans hrest

/-- What the projections are scanned into, by their entries. -/
theorem scanProjections_scans {projections : List Projection} (h : scanProjections planner projections = .ok scanned) :
    Scans planner {} (entries planner 0 0 projections) scanned :=
  scanProjections_from h

theorem entries_projections (index n : ℕ) (projections : List Projection) :
    (entries planner index n projections).map Entry.projection = projections := by
  induction projections generalizing index n with
  | nil => rfl
  | cons projection projections ih => rw [entries, map_cons, entry_projection, ih]

end FerroDruid.Sql.Grouped
