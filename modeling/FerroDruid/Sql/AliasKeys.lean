import FerroDruid.Sql.AliasMeaning
/-!
# What a grouping key names

The columns that keys name, and how a plan binds these.
-/

namespace FerroDruid.Sql.Grouped

open Lib List

/-! ## Keys -/

def Projection.column? (projection : Projection) : Option Utf8 :=
  match projection.expr with
  | .column name => some name
  | _ => none

section

variable (schema : DataSourceSchema) (projections : List Projection)

def isColumnName (name : Utf8) : Bool := (schema.columnType name).isSome || projections.any fun p => p.column? = some name

/-- The column of a name: the one called so, and else the one that is selected under it. -/
def namedColumn (name : Utf8) : Utf8 :=
  if isColumnName schema projections name then name
  else ((projections.find? fun p => p.column?.isSome && p.label = some name).bind Projection.column?).getD name

/-- A key by its place: its name and its column. -/
def positionKey (n : ℕ) : Option (Utf8 × Utf8) := do
  if n = 0 then none
  else
    let projection ← projections[n - 1]?
    let column ← projection.column?
    some (projection.label.getD column, column)

def namedKey : GroupKey → Option (Utf8 × Utf8)
  | .column name => some (name, namedColumn schema projections name)
  | .position n => positionKey projections n
  | .integer n => if n.toInt < 0 then none else positionKey projections n.toInt.toNat
  | .timeGrain | .other => none

/-- The keys of a query, each with the column it names. -/
def namedKeys (select : Select) : List (Utf8 × Utf8) := select.groupBy.filterMap (namedKey schema select.projections)

end

variable {schema : DataSourceSchema} {projections : List Projection}

theorem positionKey_of_ok {n : ℕ} {name : Utf8} (h : resolveGroupByPosition projections n = .ok name) :
    ∃ column, positionKey projections n = some (name, column) := by
  unfold resolveGroupByPosition at h
  unfold positionKey
  split_ifs at h with hn
  rw [if_neg hn]
  cases hp : projections[n - 1]? with
  | none =>
    rw [hp] at h
    cases h
  | some projection =>
    simp only [hp] at h
    obtain ⟨expr, label⟩ := projection
    cases expr with
    | column column =>
      cases h
      exact ⟨column, rfl⟩
    | _ => cases h

theorem namedKey_of_ok {key : GroupKey} {name : Option Utf8} (h : groupByName projections key = .ok name) :
    (namedKey schema projections key).map Prod.fst = name := by
  have hposition : ∀ {n : ℕ}, (resolveGroupByPosition projections n).map some = .ok name → (positionKey projections n).map Prod.fst = name := by
    intro n hn
    cases hresolve : resolveGroupByPosition projections n with
    | error e =>
      rw [hresolve] at hn
      cases hn
    | ok resolved =>
      rw [hresolve] at hn
      cases hn
      obtain ⟨column, hkey⟩ := positionKey_of_ok hresolve
      rw [hkey]
      rfl
  cases key with
  | column n =>
    cases h
    rfl
  | position n => exact hposition h
  | integer n =>
    rw [groupByName] at h
    split_ifs at h with hn
    rw [namedKey, if_neg hn]
    exact hposition h
  | timeGrain =>
    cases h
    rfl
  | other => cases h

variable {select : Select}

/-- The names that are grouped by are those of the keys. -/
theorem extractGroupByDims_ok {names : List Utf8} (h : extractGroupByDims select = .ok names) :
    names = (namedKeys schema select).map Prod.fst := by
  obtain ⟨resolved, hresolved, h⟩ := bind_eq_ok.1 h
  cases h
  rw [← map_of_mapM hresolved fun key name => @namedKey_of_ok schema _ key name, filterMap_map, namedKeys, map_filterMap]
  rfl

/-! ## Kinds of entries -/

theorem Projection.column?_eq_some {projection : Projection} {column : Utf8} : projection.column? = some column ↔ projection.expr = .column column := by
  unfold Projection.column?
  cases projection.expr <;> simp

/-- What an entry is called, and stands for, by its kind. -/
structure Entry.Classified (planner : Planner) (e : Entry) : Prop where
  item : e.item.output = e.name
  column : ∀ column, e.projection.column? = some column → e.item = .dimension column e.name ∧ e.name = e.projection.label.getD column
  dimension : e.isDimension = true → (∃ column, e.projection.column? = some column) ∨ ∃ expr, meaning planner e.projection.expr = .expression expr
  plain : ∀ aggregate, e.plain = some aggregate → e.isDimension = false ∧ meaning planner e.projection.expr = .aggregate aggregate

theorem entry_classified (planner : Planner) (index n : ℕ) (projection : Projection) :
    (entry planner index n projection).1.Classified planner := by
  obtain ⟨expr, label⟩ := projection
  cases expr with
  | column name =>
    refine ⟨rfl, fun column h => ?_, fun _ => .inl ⟨name, rfl⟩, (fun _ h => by cases h)⟩
    cases h
    exact ⟨rfl, rfl⟩
  | constant value => exact ⟨rfl, (fun _ h => by cases h), fun _ => .inr ⟨_, rfl⟩, (fun _ h => by cases h)⟩
  | aggregate func arg distinct =>
    cases hplain : plainAggregate planner func arg distinct with
    | some aggregate =>
      simp only [entry, hplain]
      refine ⟨rfl, (fun _ h => by cases h), (fun h => by cases h), fun a h => ⟨rfl, ?_⟩⟩
      cases h
      simp only [meaning, operandMeaning, hplain]
    | none =>
      have hexpression : (∀ field, ¬(func = .avg ∧ arg = .column field) ∧ ¬(func = .count ∧ arg = .column field)) →
          meaning planner (.aggregate func arg distinct) = .expression (.aggregate func arg distinct) := by
        intro h
        simp only [meaning, operandMeaning, hplain]
        split
        · exact absurd ⟨rfl, rfl⟩ (h _).1
        · exact absurd ⟨rfl, rfl⟩ (h _).2
        · rfl
      simp only [entry, hplain]
      cases func with
      | avg => cases arg <;> exact ⟨rfl, (fun _ h => by cases h), (fun h => by cases h), (fun _ h => by cases h)⟩
      | count =>
        cases arg with
        | column field => exact ⟨rfl, (fun _ h => by cases h), (fun h => by cases h), (fun _ h => by cases h)⟩
        | _ => exact ⟨rfl, (fun _ h => by cases h), fun _ => .inr ⟨_, hexpression fun field => by simp⟩, (fun _ h => by cases h)⟩
      | _ => exact ⟨rfl, (fun _ h => by cases h), fun _ => .inr ⟨_, hexpression fun field => by simp⟩, (fun _ h => by cases h)⟩
  | binaryOp left op right =>
    cases haggregate : (containsAggregate left || containsAggregate right) with
    | false =>
      simp only [entry, haggregate, Bool.false_eq_true, if_false]
      refine ⟨?_, (fun _ h => by cases h), fun _ => .inr ⟨.binaryOp left op right, ?_⟩, (fun _ h => by cases h)⟩
      · simp only [Entry.item, Entry.isDimension, haggregate, Bool.not_false, if_true]
        rfl
      · simp only [meaning, haggregate, Bool.false_eq_true, if_false]
    | true =>
      simp only [entry, haggregate, if_true]
      refine ⟨?_, (fun _ h => by cases h), fun h => ?_, (fun _ h => by cases h)⟩
      · simp only [Entry.item, Entry.isDimension, haggregate, Bool.not_true, Bool.false_eq_true, if_false]
        rfl
      · simp only [Entry.isDimension, haggregate, Bool.not_true, Bool.false_eq_true] at h

theorem entries_classified (planner : Planner) (index n : ℕ) (projections : List Projection) :
    ∀ e ∈ entries planner index n projections, e.Classified planner := by
  induction projections generalizing index n with
  | nil => exact forall_mem_nil _
  | cons projection projections ih => exact forall_mem_cons.2 ⟨entry_classified planner index n projection, ih _ _⟩

/-! ## Bindings -/

theorem resolveDimBinding_cases (items : List SelectOutputItem) (name : Utf8) :
    .dimension (resolveDimBinding items name).1 (resolveDimBinding items name).2 ∈ items ∨
      (resolveDimBinding items name = (name, name) ∧ ∀ column output, .dimension column output ∈ items → column ≠ name ∧ output ≠ name) := by
  unfold resolveDimBinding
  cases hfind : items.findSome? _ with
  | some binding =>
    left
    obtain ⟨item, hitem, hbinding⟩ := exists_of_findSome?_eq_some hfind
    cases item with
    | aggregate n => cases hbinding
    | dimension column output =>
      dsimp only at hbinding
      split_ifs at hbinding
      cases hbinding
      exact hitem
  | none =>
    refine .inr ⟨rfl, fun column output hitem => ?_⟩
    have hnone := findSome?_eq_none_iff.1 hfind _ hitem
    dsimp only at hnone
    split_ifs at hnone with hname
    exact not_or.1 hname

/-- A selected column that has the name, as its own or for its label. -/
def Projection.answersTo (name : Utf8) (projection : Projection) : Bool :=
  match projection.column? with
  | some column => decide (column = name ∨ projection.label = some name)
  | none => false

theorem positionKey_answered {projections : List Projection} {n : ℕ} {key : Utf8 × Utf8} (h : positionKey projections n = some key) :
    ∃ projection ∈ projections, projection.answersTo key.1 = true := by
  unfold positionKey at h
  split_ifs at h with hn
  obtain ⟨projection, hprojection, h⟩ := Option.bind_eq_some_iff.1 h
  obtain ⟨column, hcolumn, h⟩ := Option.bind_eq_some_iff.1 h
  cases h
  refine ⟨projection, mem_of_getElem? hprojection, ?_⟩
  simp only [Projection.answersTo, hcolumn]
  cases projection.label with
  | none => simp
  | some label => simp

/-- A key that no selected column answers to names the column that is called so. -/
theorem namedKey_unanswered {schema : DataSourceSchema} {projections : List Projection} {groupKey : GroupKey} {key : Utf8 × Utf8}
    (h : namedKey schema projections groupKey = some key) (hnone : projections.find? (Projection.answersTo key.1) = none) : key.2 = key.1 := by
  have hposition : ∀ n, positionKey projections n ≠ some key := by
    intro n hn
    obtain ⟨projection, hmem, hanswers⟩ := positionKey_answered hn
    exact find?_eq_none.1 hnone projection hmem hanswers
  cases groupKey with
  | column name =>
    cases h
    unfold namedColumn
    split_ifs
    · rfl
    · have hfind : projections.find? (fun p => p.column?.isSome && p.label = some name) = none := by
        rw [find?_eq_none]
        intro p hp hlabelled
        refine find?_eq_none.1 hnone p hp ?_
        unfold Projection.answersTo
        cases hcolumn : p.column? <;> simp_all
      rw [hfind]
      rfl
  | position n => exact absurd h (hposition n)
  | integer n =>
    rw [namedKey] at h
    split_ifs at h
    exact absurd h (hposition _)
  | timeGrain => cases h
  | other => cases h

variable {planner : Planner}

/-- A key is bound to the first selected column that has its name. -/
theorem resolveDimBinding_fst {es : List Entry} (hclassified : ∀ e ∈ es, e.Classified planner)
    (hcolumns : ∀ e ∈ es, e.isDimension = true → ∃ column, e.projection.column? = some column) (name : Utf8) :
    (resolveDimBinding (es.map Entry.item) name).1 =
    (((es.map Entry.projection).find? (Projection.answersTo name)).bind Projection.column?).getD name := by
  unfold resolveDimBinding
  induction es with
  | nil => rfl
  | cons e es ih =>
    obtain ⟨he, hes⟩ := forall_mem_cons.1 hclassified
    obtain ⟨hcolumn, hcolumns⟩ := forall_mem_cons.1 hcolumns
    specialize ih hes hcolumns
    rw [map_cons, map_cons, findSome?_cons, find?_cons]
    cases hp : e.projection.column? with
    | none =>
      have hdimension : e.isDimension = false := by
        rw [Bool.eq_false_iff]
        intro h
        obtain ⟨column, h⟩ := hcolumn h
        rw [hp] at h
        cases h
      have hitem : e.item = .aggregate e.name := by rw [Entry.item, hdimension, if_neg Bool.false_ne_true]
      simp only [hitem, Projection.answersTo, hp]
      exact ih
    | some column =>
      obtain ⟨hitem, hname⟩ := he.column column hp
      have hiff : (column = name ∨ e.name = name) ↔ (column = name ∨ e.projection.label = some name) := by
        rw [hname]
        cases e.projection.label with
        | none => simp
        | some label => simp
      simp only [hitem, Projection.answersTo, hp]
      by_cases h : column = name ∨ e.projection.label = some name
      · simp [hiff.2 h, h, hp]
      · simp only [if_neg (mt hiff.1 h), h, decide_false]
        exact ih

theorem mem_outputsOf {items : List SelectOutputItem} {column output : Utf8} : output ∈ outputsOf items column ↔ .dimension column output ∈ items := by
  rw [outputsOf, mem_filterMap]
  constructor
  · rintro ⟨item, hitem, h⟩
    cases item with
    | aggregate n => cases h
    | dimension c o =>
      dsimp only at h
      split_ifs at h with hc
      cases h
      exact hc ▸ hitem
  · intro h
    exact ⟨_, h, if_pos rfl⟩

/-! ## Dimensions -/

/-- What the dimensions and the columns of a plan are, given the columns and the names that
its keys are bound to. -/
structure Binds (items : List SelectOutputItem) (bindings : List (Utf8 × Utf8)) (planned : PlannedQuery) : Prop where
  sound : ∀ d ∈ planned.dimensions, ∃ binding ∈ bindings, d.dimension = binding.1 ∧
    (d.outputName = binding.2 ∨ .dimension d.dimension d.outputName ∈ items)
  complete : ∀ column output, .dimension column output ∈ items → column ∈ bindings.map Prod.fst → ∃ d ∈ planned.dimensions, d.outputName = output
  outputs : ∃ rename : SelectOutputItem → Utf8, planned.outputColumns = items.map rename ∧
    ∀ item ∈ items, (∀ column output, item = .dimension column output → column ∈ bindings.map Prod.fst) → rename item = item.output

variable {items : List SelectOutputItem} {bindings : List (Utf8 × Utf8)} {planned : PlannedQuery}

/-- One output name for each dimension: the first that comes with a name has it. -/
def pushDimension (dimensions : List DimensionSpec) (d : DimensionSpec) : List DimensionSpec :=
  if dimensions.any (fun d' => d'.outputName = d.outputName) then dimensions else dimensions ++ [d]

variable {d : DimensionSpec}

theorem mem_of_mem_pushDimensions {dimensions ds : List DimensionSpec} (h : d ∈ ds.foldl pushDimension dimensions) :
    d ∈ dimensions ∨ d ∈ ds := by
  induction ds generalizing dimensions with
  | nil => exact .inl h
  | cons d' ds ih =>
    rcases ih h with h | h
    · rw [pushDimension] at h
      split_ifs at h
      · exact .inl h
      · rcases mem_append.1 h with h | h
        · exact .inl h
        · exact .inr (mem_cons.2 (.inl (mem_singleton.1 h)))
    · exact .inr (mem_cons_of_mem _ h)

theorem output_mem_pushDimensions {dimensions ds : List DimensionSpec} (h : d ∈ dimensions ∨ d ∈ ds) :
    ∃ d' ∈ ds.foldl pushDimension dimensions, d'.outputName = d.outputName := by
  induction ds generalizing dimensions d with
  | nil => exact ⟨d, h.resolve_right nofun, rfl⟩
  | cons d' ds ih =>
    -- what stood there stays, and the name that is pushed is there afterwards
    have hkept : ∀ d ∈ dimensions, d ∈ pushDimension dimensions d' := by
      intro d hd
      rw [pushDimension]
      split_ifs
      · exact hd
      · exact mem_append_left _ hd
    have hpushed : ∃ d'' ∈ pushDimension dimensions d', d''.outputName = d'.outputName := by
      rw [pushDimension]
      split_ifs with hseen
      · obtain ⟨d'', hd'', hname⟩ := any_eq_true.1 hseen
        exact ⟨d'', hd'', of_decide_eq_true hname⟩
      · exact ⟨d', mem_append_right _ (mem_singleton_self d'), rfl⟩
    rcases h with h | h
    · exact ih (.inl (hkept d h))
    · rcases mem_cons.1 h with rfl | h
      · obtain ⟨d'', hd'', hname⟩ := hpushed
        obtain ⟨d3, hd3, hname3⟩ := ih (d := d'') (.inl hd'')
        exact ⟨d3, hd3, hname3.trans hname⟩
      · exact ih (.inr h)

/-- The dimensions that a groupBy is given for its bindings, some of which it drops. -/
def candidates (items : List SelectOutputItem) (binding : Utf8 × Utf8) : List DimensionSpec :=
  (binding.2 :: (outputsOf items binding.1).filter (· ≠ binding.2)).map fun output => ⟨binding.1, output⟩

theorem groupDimensions_eq : groupDimensions items bindings = (bindings.flatMap (candidates items)).foldl pushDimension [] := by
  rw [groupDimensions, foldl_flatMap]
  simp only [candidates, foldl_map]
  rfl

theorem mem_candidates {binding : Utf8 × Utf8} :
    d ∈ candidates items binding ↔ d.dimension = binding.1 ∧ (d.outputName = binding.2 ∨ .dimension d.dimension d.outputName ∈ items) := by
  obtain ⟨dimension, outputName⟩ := d
  simp only [candidates, mem_map, mem_cons, mem_filter, mem_outputsOf, decide_eq_true_eq, DimensionSpec.mk.injEq]
  constructor
  · rintro ⟨output, houtput, rfl, rfl⟩
    exact ⟨rfl, houtput.imp_right And.left⟩
  · rintro ⟨rfl, houtput⟩
    refine ⟨outputName, ?_, rfl, rfl⟩
    by_cases hsame : outputName = binding.2
    · exact .inl hsame
    · exact .inr ⟨houtput.resolve_left hsame, hsame⟩

theorem binds_groupBy (hdimensions : planned.dimensions = groupDimensions items bindings)
    (houtputs : planned.outputColumns = items.map SelectOutputItem.output) : Binds items bindings planned where
  sound := by
    intro d hd
    rw [hdimensions, groupDimensions_eq] at hd
    obtain hd | hd := mem_of_mem_pushDimensions hd
    · cases hd
    · obtain ⟨binding, hbinding, hd⟩ := mem_flatMap.1 hd
      exact ⟨binding, hbinding, mem_candidates.1 hd⟩
  complete := by
    intro column output hitem hcolumn
    obtain ⟨binding, hbinding, rfl⟩ := mem_map.1 hcolumn
    have hcandidate : DimensionSpec.mk binding.1 output ∈ bindings.flatMap (candidates items) :=
      mem_flatMap.2 ⟨binding, hbinding, mem_candidates.2 ⟨rfl, .inr hitem⟩⟩
    rw [hdimensions, groupDimensions_eq]
    exact output_mem_pushDimensions (.inr hcandidate)
  outputs := ⟨SelectOutputItem.output, houtputs, fun _ _ _ => rfl⟩

variable {scanned : Scanned}

/-- A topN has one key, all of whose columns have one output name. -/
theorem binds_topN {filter : Option FilterSpec} {name : Utf8}
    (h : tryPlanTopn planner select filter scanned name = some planned) :
    planned.aggregations = scanned.aggs.nativeAggregations ∧ planned.postAggregations = scanned.aggs.postAggs ∧
      Binds scanned.selectItems [resolveDimBinding scanned.selectItems name] planned := by
  obtain ⟨threshold, -, h⟩ := Option.bind_eq_some_iff.1 h
  obtain ⟨order, -, h⟩ := Option.bind_eq_some_iff.1 h
  obtain ⟨metric, -, h⟩ := Option.bind_eq_some_iff.1 h
  dsimp only at h
  split_ifs at h with hlength
  cases h
  have hsame : ∀ output, .dimension (resolveDimBinding scanned.selectItems name).1 output ∈ scanned.selectItems →
      (resolveDimBinding scanned.selectItems name).2 = output := by
    intro output hitem
    rcases resolveDimBinding_cases scanned.selectItems name with hfound | ⟨hnone, habsent⟩
    · have hle : (outputsOf scanned.selectItems (resolveDimBinding scanned.selectItems name).1).dedup.length ≤ 1 := by omega
      have hmem := mem_dedup.2 (mem_outputsOf.2 hfound)
      have hmem' := mem_dedup.2 (mem_outputsOf.2 hitem)
      match hdedup : (outputsOf scanned.selectItems (resolveDimBinding scanned.selectItems name).1).dedup, hle with
      | [], _ =>
        rw [hdedup] at hmem
        cases hmem
      | [only], _ =>
        rw [hdedup, mem_singleton] at hmem hmem'
        exact hmem.trans hmem'.symm
    · rw [hnone] at hitem
      exact absurd rfl (habsent _ _ hitem).1
  refine ⟨rfl, rfl, ⟨?_, ?_, _, rfl, ?_⟩⟩
  · intro d hd
    obtain rfl := mem_singleton.1 hd
    exact ⟨_, mem_singleton_self _, rfl, .inl rfl⟩
  · intro column output hitem hcolumn
    obtain rfl := mem_singleton.1 hcolumn
    exact ⟨_, mem_singleton_self _, hsame output hitem⟩
  · intro item hitem hbound
    cases item with
    | aggregate n => rfl
    | dimension column output =>
      obtain rfl := mem_singleton.1 (hbound column output rfl)
      exact hsame output hitem

/-- Over everything there are no keys, and so no columns. -/
theorem binds_timeseries {es : List Entry} (hscans : Scans planner {} es scanned)
    (hclassified : ∀ e ∈ es, e.Classified planner) (hnone : scanned.dimensionExprs = []) (filter : Option FilterSpec) :
    Binds scanned.selectItems [] (planTimeseriesAll filter scanned.aggs) where
  sound := nofun
  complete := nofun
  outputs := by
    refine ⟨SelectOutputItem.output, ?_, fun _ _ _ => rfl⟩
    have hitems : scanned.selectItems = es.map Entry.item := hscans.selectItems
    have hoption : es.filter Entry.isDimension = [] := by
      simpa [hnone] using hscans.dimensionExprs.symm
    have hall : es.filter (fun e => !e.isDimension) = es := by
      rw [filter_eq_self]
      intro e he
      rw [filter_eq_nil_iff] at hoption
      simpa using hoption e he
    have houtputs := hscans.outputNames
    rw [hall] at houtputs
    rw [hitems, map_map]
    refine houtputs.trans (map_congr_left fun e he => ?_)
    exact (hclassified e he).item.symm

theorem ensureProjectionsGrouped_nil {projections : List Projection} {u : Unit}
    (h : ensureProjectionsGrouped [] projections = .ok u) : projections = [] := by
  cases projections with
  | nil => rfl
  | cons projection projections =>
    have hkey : isGroupingKey [] projection = false := by
      obtain ⟨expr, label⟩ := projection
      cases expr <;> cases label <;> rfl
    rw [ensureProjectionsGrouped, hkey, if_neg Bool.false_ne_true] at h
    cases h

theorem planGroupby_binds {filter : Option FilterSpec} {names : List Utf8}
    (h : planGroupby planner select filter scanned names = .ok planned) :
    planned.aggregations = scanned.aggs.nativeAggregations ∧ planned.postAggregations = scanned.aggs.postAggs ∧
      Binds scanned.selectItems (names.map (resolveDimBinding scanned.selectItems)) planned := by
  obtain ⟨having, -, h⟩ := bind_eq_ok.1 h
  obtain ⟨columns, -, h⟩ := bind_eq_ok.1 h
  dsimp only at h
  split at h
  · cases h
    exact ⟨rfl, rfl, binds_groupBy rfl rfl⟩
  · obtain ⟨sets, -, h⟩ := bind_eq_ok.1 h
    cases h
    exact ⟨rfl, rfl, binds_groupBy rfl rfl⟩

theorem planSelect_binds (h : planSelect planner select = .ok (.aggregating planned)) :
    ∃ scanned, scanProjections planner select.projections = .ok scanned ∧ planned.aggregations = scanned.aggs.nativeAggregations ∧
      planned.postAggregations = scanned.aggs.postAggs ∧
      Binds scanned.selectItems ((namedKeys planner.schema select).map fun key => resolveDimBinding scanned.selectItems key.1) planned := by
  obtain ⟨scanned, hscanned, h⟩ := bind_eq_ok.1 h
  obtain ⟨names, hnames, h⟩ := bind_eq_ok.1 h
  obtain ⟨filter, -, h⟩ := bind_eq_ok.1 h
  refine ⟨scanned, hscanned, ?_⟩
  have hkeys : (namedKeys planner.schema select).map (fun key => resolveDimBinding scanned.selectItems key.1) =
      names.map (resolveDimBinding scanned.selectItems) := by
    rw [@extractGroupByDims_ok planner.schema _ _ hnames, map_map]
    rfl
  rw [hkeys]
  by_cases hscan : (!scanned.aggs.hasAggregation && select.groupBy.isEmpty) = true
  · rw [if_pos hscan] at h
    cases h
  rw [if_neg hscan] at h
  obtain ⟨u, hgrouped, h⟩ := bind_eq_ok.1 h
  by_cases hall : (scanned.aggs.hasAggregation && select.groupBy.isEmpty) = true
  · rw [if_pos hall] at h
    cases h
    obtain rfl : names = [] := by
      rw [@extractGroupByDims_ok planner.schema _ _ hnames, namedKeys, List.isEmpty_iff.1 (Bool.and_eq_true_iff.1 hall).2]
      rfl
    have hscans := scanProjections_scans hscanned
    exact ⟨rfl, rfl, binds_timeseries hscans (entries_classified planner 0 0 _) (ensureProjectionsGrouped_nil hgrouped) filter⟩
  rw [if_neg hall] at h
  have hgroupBy : (do let planned ← planGroupby planner select filter scanned names; Except.ok (Plan.aggregating planned)) =
    .ok (.aggregating planned) →
      planned.aggregations = scanned.aggs.nativeAggregations ∧ planned.postAggregations = scanned.aggs.postAggs ∧
        Binds scanned.selectItems (names.map (resolveDimBinding scanned.selectItems)) planned := by
    intro hplan
    obtain ⟨planned', hplanned, hplan⟩ := bind_eq_ok.1 hplan
    cases hplan
    exact planGroupby_binds hplanned
  split at h
  case h_1 name =>
    split at h
    case isTrue =>
      dsimp only at h
      split at h
      case h_1 topn htopn =>
        cases h
        exact binds_topN htopn
      case h_2 => exact hgroupBy h
    case isFalse => exact hgroupBy h
  case h_2 => exact hgroupBy h

end FerroDruid.Sql.Grouped
