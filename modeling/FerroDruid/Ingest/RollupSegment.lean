import FerroDruid.Ingest.Rollup
/-!
# The segment of a rollup

Its columns as one list, and what they hold row by row: the texts of a group's key
read back as the values they came from, and each metric under its name.
-/

namespace FerroDruid.Ingest

open Lib List

/-! ## What a segment holds -/

/-- A value of a row in a column. -/
inductive StoredCell where
  | null
  | long (n : Int64)
  | double (x : F64)
  | text (s : Utf8)
  | texts (elements : List Utf8)
  deriving DecidableEq

def ColumnData.cells : ColumnData → List StoredCell
  | .long values => values.map .long
  | .longNullable values => values.map fun v => v.elim .null .long
  | .double values => values.map fun x => if x = .nan then .null else .double x
  | .string values => values.map fun s => s.elim .null .text
  | .stringMulti rows => rows.map .texts

def SegmentData.cell (seg : SegmentData) (name : Utf8) (r : ℕ) : Option StoredCell := (seg.columns.lookup name).bind fun col => col.cells[r]?

namespace BatchIngester

variable {b : BatchIngester}

/-! ## Its columns -/

theorem insertDimensions_ok {rows : List (Int64 × Row)} {schemas : List DimensionSchema} {columns columns' : HashMap Utf8 ColumnData}
    (h : b.insertDimensions rows schemas columns = .ok columns') :
    ∃ cols, List.Forall₂ (fun schema col => b.buildDimension schema rows = .ok col) schemas cols ∧
      columns' = HashMap.insertAll ((schemas.map (·.name)).zip cols) columns := by
  induction schemas generalizing columns with
  | nil =>
    cases h
    exact ⟨[], .nil, rfl⟩
  | cons schema schemas ih =>
    obtain ⟨col, hcol, h⟩ := bind_eq_ok.1 h
    obtain ⟨cols, hcols, rfl⟩ := ih h
    exact ⟨col :: cols, .cons hcol hcols, rfl⟩

/-- The metrics that have a name. -/
def namedMetrics (b : BatchIngester) : List (MetricSpec × Utf8) := b.metricsSpecs.filterMap fun spec => spec.name.map fun name => (spec, name)

theorem map_namedMetrics : b.namedMetrics.map (·.2) = b.metricNames := by
  rw [namedMetrics, metricNames, map_filterMap]
  refine filterMap_congr fun spec _ => ?_
  cases spec.name <;> rfl

theorem insertMetrics_eq (rolled : Bool) (rows : List (Int64 × Row)) (columns : HashMap Utf8 ColumnData) :
    b.insertMetrics rolled rows columns =
      HashMap.insertAll (b.namedMetrics.map fun metric => (metric.2, b.buildMetric rolled metric.1 metric.2 rows)) columns := by
  unfold insertMetrics namedMetrics
  induction b.metricsSpecs generalizing columns with
  | nil => rfl
  | cons spec specs ih =>
    rw [foldl_cons, ih]
    cases hname : spec.name with
    | none => rw [filterMap_cons_none (by rw [hname]; rfl)]
    | some name =>
      rw [filterMap_cons_some (b := (spec, name)) (by rw [hname]; rfl)]
      rfl

/-- The names of the columns to be. -/
def columnNames (b : BatchIngester) : List Utf8 := timeName :: b.dimensionNames ++ b.metricNames

/-- The time, the dimensions and the metrics. -/
def columnList (b : BatchIngester) (rolled : Bool) (sorted : List (Int64 × Row)) (cols : List ColumnData) : List (Utf8 × ColumnData) :=
  (timeName, .long (sorted.map (·.1))) :: b.dimensionNames.zip cols ++
    b.namedMetrics.map fun metric => (metric.2, b.buildMetric rolled metric.1 metric.2 sorted)

theorem map_columnList {rolled : Bool} {sorted : List (Int64 × Row)} {cols : List ColumnData} (h : b.dimSchemas.length = cols.length) :
    (b.columnList rolled sorted cols).map (·.1) = b.columnNames := by
  have hzip : (b.dimensionNames.zip cols).map (·.1) = b.dimensionNames :=
    map_fst_zip (by rw [dimensionNames, length_map, h])
  have hmetrics : (b.namedMetrics.map fun metric => (metric.2, b.buildMetric rolled metric.1 metric.2 sorted)).map (·.1) = b.metricNames := by
    rw [map_map, ← map_namedMetrics]
    rfl
  rw [columnList, map_append, map_cons, hzip, hmetrics, columnNames]

/-- A segment is made of its columns. -/
theorem ingestParsed_ok {parsedRows sorted : List (Int64 × Row)} {rolled : Bool} {seg : SegmentData} (h : b.ingestParsed parsedRows rolled = .ok seg)
    (hsorted : parsedRows.insertionSort (fun x y => x.1.toInt ≤ y.1.toInt) = sorted) :
    seg.numRows = sorted.length ∧ ∃ cols, List.Forall₂ (fun schema col => b.buildDimension schema sorted = .ok col) b.dimSchemas cols ∧
      seg.columns = HashMap.insertAll (b.columnList rolled sorted cols) ∅ := by
  unfold ingestParsed at h
  rw [hsorted] at h
  cases sorted with
  | nil => cases h
  | cons first rest =>
    obtain ⟨columns, hcolumns, h⟩ := bind_eq_ok.1 h
    cases h
    obtain ⟨cols, hcols, rfl⟩ := insertDimensions_ok hcolumns
    refine ⟨rfl, cols, hcols, ?_⟩
    rw [insertMetrics_eq, columnList, HashMap.insertAll_append]
    rfl

/-! ## Its rows -/

variable {granularity : String}

/-- The time of a row that is accepted. -/
def timestampOf (b : BatchIngester) (row : Row) : Int64 := (b.extractTimestamp row).toOption.getD 0

/-- The key of a row that is accepted. -/
def keyOf (b : BatchIngester) (granularity : String) (row : Row) : RollupKey :=
  (b.rollupKey granularity (b.timestampOf row, row)).toOption.getD ⟨0, []⟩

/-- What the rows of a group add up to. -/
def accumulate (b : BatchIngester) (group : List Row) : RollupAccum := group.foldl b.feed ⟨0, ∅⟩

def groupOf (b : BatchIngester) (granularity : String) (rows : List Row) (key : RollupKey) : List Row := rows.filter (b.keyOf granularity · = key)

/-- The row that a group becomes. -/
def rolledGroup (b : BatchIngester) (granularity : String) (rows : List Row) (key : RollupKey) : Int64 × Row :=
  (key.ts, b.rolledRow key (b.accumulate (b.groupOf granularity rows key)))

theorem toOption_getD_ok {ε α : Type} {x : Except ε α} {v d : α} (h : x = .ok v) : x.toOption.getD d = v := by
  rw [h]
  rfl

/-- The groups by their keys. -/
theorem lookup_groups (rows : List Row) (key : RollupKey) :
    (groupFold (b.keyOf granularity) (fun _ => ⟨0, ∅⟩) b.feed rows ∅).lookup key =
      if key ∈ rows.map (b.keyOf granularity) then some (b.accumulate (b.groupOf granularity rows key)) else none := by
  rw [lookup_groupFold_empty]
  cases hgroup : rows.filter (b.keyOf granularity · = key) with
  | nil =>
    rw [filter_eq_nil_iff] at hgroup
    rw [if_neg]
    rintro hmem
    obtain ⟨row, hrow, heq⟩ := mem_map.1 hmem
    exact hgroup row hrow (decide_eq_true heq)
  | cons row group =>
    have hrow : row ∈ rows.filter (b.keyOf granularity · = key) := hgroup ▸ mem_cons_self ..
    rw [if_pos (mem_map.2 ⟨row, (mem_filter.1 hrow).1, of_decide_eq_true (mem_filter.1 hrow).2⟩), groupOf, hgroup]
    rfl

/-- A rollup is made of every group once. -/
theorem ingestWithRollup_ok {rows : List Row} {seg : SegmentData} (h : b.ingestWithRollup rows granularity = .ok seg) :
    (∀ row ∈ rows, b.rollupKey granularity (b.timestampOf row, row) = .ok (b.keyOf granularity row)) ∧
      ∃ keys : List RollupKey, keys.Nodup ∧ (∀ key, key ∈ keys ↔ key ∈ rows.map (b.keyOf granularity)) ∧
        ∃ parsed, b.ingestParsed parsed true = .ok seg ∧
          parsed.insertionSort (fun x y => x.1.toInt ≤ y.1.toInt) = keys.map (b.rolledGroup granularity rows) := by
  unfold ingestWithRollup at h
  split_ifs at h
  obtain ⟨parsed, hparsed, h⟩ := bind_eq_ok.1 h
  obtain ⟨keyed, hkeyed, h⟩ := bind_eq_ok.1 h
  obtain rfl : (rows.map fun row => (b.timestampOf row, row)) = parsed := map_of_mapM hparsed fun row parsed hrow => by
    obtain ⟨ts, hts, hrow⟩ := bind_eq_ok.1 hrow
    cases hrow
    rw [timestampOf, toOption_getD_ok hts]
  obtain rfl : (rows.map fun row => (b.keyOf granularity row, row)) = keyed := by
    rw [← map_of_mapM (g := fun parsed => ((b.rollupKey granularity parsed).toOption.getD ⟨0, []⟩, parsed.2)) hkeyed fun parsed keyed hrow => by
      obtain ⟨key, hkey, hrow⟩ := bind_eq_ok.1 hrow
      cases hrow
      rw [toOption_getD_ok hkey], map_map]
    rfl
  have hok : ∀ row ∈ rows, b.rollupKey granularity (b.timestampOf row, row) = .ok (b.keyOf granularity row) := by
    intro row hrow
    obtain ⟨_, hrow⟩ := forall_of_mapM hkeyed (b.timestampOf row, row) (mem_map.2 ⟨row, hrow, rfl⟩)
    obtain ⟨key, hkey, -⟩ := bind_eq_ok.1 hrow
    rw [keyOf, toOption_getD_ok hkey, hkey]
  have hgroups : groupFold (·.1) (fun _ => ⟨0, ∅⟩) (fun acc (x : RollupKey × Row) => b.feed acc x.2) (rows.map fun row =>
    (b.keyOf granularity row, row)) ∅ =
      groupFold (b.keyOf granularity) (fun _ => ⟨0, ∅⟩) b.feed rows ∅ := by
    rw [groupFold, foldl_map]
    rfl
  simp only [hgroups] at h
  generalize hinOrder : (groupFold (b.keyOf granularity) (fun _ => ⟨0, ∅⟩) b.feed rows ∅).keys.insertionSort (fun x y => x.before y) = inOrder at h
  have hperm : inOrder.Perm (groupFold (b.keyOf granularity) (fun _ => ⟨0, ∅⟩) b.feed rows ∅).keys := hinOrder ▸ perm_insertionSort _ _
  have hmem : ∀ key, key ∈ inOrder ↔ key ∈ rows.map (b.keyOf granularity) := fun key => hperm.mem_iff.trans (mem_keys_groupFold ..)
  have hrolled : (inOrder.filterMap fun key => ((groupFold (b.keyOf granularity) (fun _ => ⟨0, ∅⟩) b.feed rows ∅).lookup key).map fun acc =>
      (key.ts, b.rolledRow key acc)) = inOrder.map (b.rolledGroup granularity rows) := by
    rw [← filterMap_eq_map]
    refine filterMap_congr fun key hkey => ?_
    rw [lookup_groups, if_pos ((hmem key).1 hkey)]
    rfl
  rw [hrolled] at h
  refine ⟨hok, inOrder.insertionSort fun x y => x.ts.toInt ≤ y.ts.toInt, ?_, fun key => ?_, _, h, ?_⟩
  · exact (perm_insertionSort _ _).nodup_iff.2 (hperm.nodup_iff.2 (AList.keys_nodup _))
  · rw [mem_insertionSort, hmem]
  · exact (map_insertionSort _ _ (b.rolledGroup granularity rows) inOrder fun _ _ _ _ => Iff.rfl).symm

/-! ## What a group adds up to -/

theorem countNames_eq : b.countNames = (b.namedMetrics.filter fun metric => metric.1.typ = .integer .count).map (·.2) := by
  rw [countNames, namedMetrics, filter_filterMap, map_filterMap]
  refine filterMap_congr fun spec _ => ?_
  cases spec.name <;> by_cases hcount : spec.typ = .integer .count <;> simp [hcount]

theorem sumMetrics_eq :
    b.sumMetrics = (b.namedMetrics.filter fun metric => !decide (metric.1.typ = .integer .count)).map fun metric =>
      (metric.2, metric.1.fieldName.getD metric.2) := by
  rw [sumMetrics, namedMetrics, filter_filterMap, map_filterMap]
  refine filterMap_congr fun spec _ => ?_
  cases spec.name <;> by_cases hcount : spec.typ = .integer .count <;> simp [hcount]

/-- Every metric is a count or a sum. -/
theorem countNames_append_perm : (b.countNames ++ b.sumMetrics.map (·.1)).Perm b.metricNames := by
  rw [countNames_eq, sumMetrics_eq, map_map, ← map_namedMetrics, Function.comp_def, ← map_append]
  exact (filter_append_perm _ _).map _

/-- A null adds nothing. -/
def addInput (acc input : Option F64) : Option F64 :=
  match input with
  | some val => some ((acc.getD (.zero false)).add val)
  | none => acc

theorem lookup_addTo (row : Row) (sums : HashMap Utf8 F64) (metric : Utf8 × Utf8) (name : Utf8) :
    (addTo row sums metric).lookup name =
      if name = metric.1 then addInput (sums.lookup name) ((row.lookup metric.2).bind jsonToF64) else sums.lookup name := by
  unfold addTo addInput
  cases hinput : (row.lookup metric.2).bind jsonToF64 with
  | none => split_ifs <;> rfl
  | some val =>
    split_ifs with hname
    · rw [hname, AList.lookup_insert]
      rfl
    · rw [AList.lookup_insert_ne hname]

theorem lookup_foldl_addTo (row : Row) (metrics : List (Utf8 × Utf8)) (sums : HashMap Utf8 F64) :
    (∀ name, name ∉ metrics.map (·.1) → (metrics.foldl (addTo row) sums).lookup name = sums.lookup name) ∧
      ((metrics.map (·.1)).Nodup → ∀ name field, (name, field) ∈ metrics →
        (metrics.foldl (addTo row) sums).lookup name = addInput (sums.lookup name) ((row.lookup field).bind jsonToF64)) := by
  induction metrics generalizing sums with
  | nil => exact ⟨fun _ _ => rfl, fun _ _ _ h => nomatch h⟩
  | cons metric metrics ih =>
    obtain ⟨hother, hown⟩ := ih (addTo row sums metric)
    refine ⟨fun name hname => ?_, fun hnodup name field hmem => ?_⟩
    · rw [map_cons, mem_cons, not_or] at hname
      rw [foldl_cons, hother name hname.2, lookup_addTo, if_neg hname.1]
    · rw [map_cons, nodup_cons] at hnodup
      rw [foldl_cons]
      rcases mem_cons.1 hmem with rfl | hmem
      · rw [hother _ hnodup.1, lookup_addTo, if_pos rfl]
      · have hne : name ≠ metric.1 := fun heq => hnodup.1 (heq ▸ mem_map.2 ⟨_, hmem, rfl⟩)
        rw [hown hnodup.2 _ _ hmem, lookup_addTo, if_neg hne]

theorem count_accumulate (group : List Row) : (b.accumulate group).count = group.length := by
  have hfold : ∀ (group : List Row) (acc : RollupAccum), (group.foldl b.feed acc).count = acc.count + group.length := by
    intro group
    induction group with
    | nil => exact fun _ => rfl
    | cons row group ih =>
      intro acc
      rw [foldl_cons, ih, length_cons, Nat.add_comm group.length, ← Nat.add_assoc]
      rfl
  rw [accumulate, hfold, Nat.zero_add]

variable {name : Utf8}

/-- The inputs of a metric in a group, added up. -/
theorem lookup_accumulate (hnodup : (b.sumMetrics.map (·.1)).Nodup) {field : Utf8} (hmem : (name, field) ∈ b.sumMetrics) (group : List Row) :
    (b.accumulate group).sums.lookup name = (group.map fun row => (row.lookup field).bind jsonToF64).foldl addInput none := by
  have hfold : ∀ (group : List Row) (acc : RollupAccum), (group.foldl b.feed acc).sums.lookup name =
      (group.map fun row => (row.lookup field).bind jsonToF64).foldl addInput (acc.sums.lookup name) := by
    intro group
    induction group with
    | nil => exact fun _ => rfl
    | cons row group ih =>
      intro acc
      rw [foldl_cons, ih, feed, (lookup_foldl_addTo row b.sumMetrics acc.sums).2 hnodup name field hmem, map_cons, foldl_cons]
  rw [accumulate, hfold]
  rfl

theorem lookup_accumulate_of_notMem (hname : name ∉ b.sumMetrics.map (·.1)) (group : List Row) :
    (b.accumulate group).sums.lookup name = none := by
  have hfold : ∀ (group : List Row) (acc : RollupAccum), (group.foldl b.feed acc).sums.lookup name = acc.sums.lookup name := by
    intro group
    induction group with
    | nil => exact fun _ => rfl
    | cons row group ih =>
      intro acc
      rw [foldl_cons, ih, feed, (lookup_foldl_addTo row b.sumMetrics acc.sums).1 name hname]
  rw [accumulate, hfold]
  rfl

/-! ## The row of a group -/

/-- The fields of the row of a group, in their order. -/
def rolledFields (b : BatchIngester) (key : RollupKey) (acc : RollupAccum) : List (Utf8 × Json) :=
  b.dimensionNames.zip (key.dims.map dimJson) ++ b.countNames.map (fun name => (name, .ofU64 (.ofNat acc.count))) ++
    (acc.sums.entries.filter fun sum => sum.2.isFinite).map fun sum => (sum.1, .ofF64 sum.2)

theorem rolledRow_eq (key : RollupKey) (acc : RollupAccum) : b.rolledRow key acc = HashMap.insertAll (b.rolledFields key acc) ∅ := by
  have hdims : ∀ (schemas : List DimensionSchema) (dims : List (Option Utf8)) (obj : Row),
      (schemas.zip dims).foldl (fun (obj : Row) dim => obj.insert dim.1.name (dimJson dim.2)) obj =
        HashMap.insertAll ((schemas.map (·.name)).zip (dims.map dimJson)) obj := by
    intro schemas
    induction schemas with
    | nil => exact fun _ _ => rfl
    | cons schema schemas ih =>
      intro dims obj
      cases dims with
      | nil => rfl
      | cons dim dims =>
        rw [zip_cons_cons, foldl_cons, ih]
        rfl
  have hsums : ∀ (sums : List (Sigma fun _ : Utf8 => F64)) (obj : Row),
      sums.foldl (fun obj sum => if sum.2.isFinite then obj.insert sum.1 (.ofF64 sum.2) else obj) obj =
        HashMap.insertAll ((sums.filter fun sum => sum.2.isFinite).map fun sum => (sum.1, .ofF64 sum.2)) obj := by
    intro sums
    induction sums with
    | nil => exact fun _ => rfl
    | cons sum sums ih =>
      intro obj
      rw [foldl_cons, ih]
      by_cases hfinite : sum.2.isFinite = true
      · rw [if_pos hfinite, filter_cons, if_pos hfinite]
        rfl
      · rw [if_neg hfinite, filter_cons, if_neg hfinite]
  have hcounts : ∀ (names : List Utf8) (obj : Row), names.foldl (fun obj name => obj.insert name (.ofU64 (.ofNat acc.count))) obj =
      HashMap.insertAll (names.map fun name => (name, .ofU64 (.ofNat acc.count))) obj := by
    intro names obj
    rw [HashMap.insertAll, foldl_map]
  rw [rolledRow, rolledFields, HashMap.insertAll_append, HashMap.insertAll_append, hdims, hcounts, hsums]
  rfl

/-- No two columns have one name. -/
def DistinctNames (b : BatchIngester) : Prop := b.columnNames.Nodup

theorem DistinctNames.nodup_fields (h : b.DistinctNames) : (b.dimensionNames ++ (b.countNames ++ b.sumMetrics.map (·.1))).Nodup := by
  have htail := (nodup_cons.1 h).2
  exact (List.Perm.append_left _ countNames_append_perm).nodup_iff.2 htail

theorem DistinctNames.nodup_sums (h : b.DistinctNames) : (b.sumMetrics.map (·.1)).Nodup :=
  (nodup_append.1 (nodup_append.1 h.nodup_fields).2.1).2.1

/-- The sums of a group are of its metrics. -/
theorem mem_keys_accumulate {group : List Row} (h : name ∈ (b.accumulate group).sums.keys) : name ∈ b.sumMetrics.map (·.1) := by
  by_contra hname
  have hnone := lookup_accumulate_of_notMem hname group
  rw [AList.lookup_eq_none] at hnone
  exact hnone (AList.mem_keys.2 h)

theorem mem_sumMetrics {spec : MetricSpec} (hmem : (spec, name) ∈ b.namedMetrics) (hsum : spec.typ ≠ .integer .count) :
    (name, spec.fieldName.getD name) ∈ b.sumMetrics := by
  rw [sumMetrics_eq]
  exact mem_map.2 ⟨(spec, name), mem_filter.2 ⟨hmem, by simpa using hsum⟩, rfl⟩

section Fields

variable (h : b.DistinctNames) {key : RollupKey} (hlen : key.dims.length = b.dimSchemas.length) (group : List Row)
include h hlen

theorem nodup_rolledFields : ((b.rolledFields key (b.accumulate group)).map (·.1)).Nodup := by
  have hzip : (b.dimensionNames.zip (key.dims.map dimJson)).map (·.1) = b.dimensionNames :=
    map_fst_zip (by rw [dimensionNames, length_map, length_map, hlen])
  have hsums : ((((b.accumulate group).sums.entries.filter fun sum => sum.2.isFinite).map fun sum =>
      (sum.1, Json.ofF64 sum.2)).map (·.1)).Sublist (b.accumulate group).sums.keys := by
    rw [map_map]
    exact filter_sublist.map _
  have hcounts : ((b.countNames.map fun name => (name, Json.ofU64 (.ofNat (b.accumulate group).count))).map (·.1)) = b.countNames := by
    rw [map_map]
    exact map_id _
  obtain ⟨hdims, hmetrics, hdisjoint⟩ := nodup_append.1 h.nodup_fields
  obtain ⟨hcount, -, hcountSum⟩ := nodup_append.1 hmetrics
  rw [rolledFields, map_append, map_append, hcounts, hzip, append_assoc]
  refine ((List.Sublist.refl _).append ((List.Sublist.refl _).append hsums)).nodup ?_
  refine nodup_append.2 ⟨hdims, nodup_append.2 ⟨hcount, AList.keys_nodup _, fun x hx y hy => ?_⟩, fun x hx y hy => ?_⟩
  · exact hcountSum x hx y (mem_keys_accumulate hy)
  · rcases mem_append.1 hy with hy | hy
    · exact hdisjoint x hx y (mem_append_left _ hy)
    · exact hdisjoint x hx y (mem_append_right _ (mem_keys_accumulate hy))

variable {name : Utf8}

theorem lookup_rolledRow_dim {dim : Option Utf8} (hmem : (name, dim) ∈ b.dimensionNames.zip key.dims) :
    (b.rolledRow key (b.accumulate group)).lookup name = some (dimJson dim) := by
  rw [rolledRow_eq]
  refine HashMap.lookup_insertAll (nodup_rolledFields h hlen group) ?_ _
  refine mem_append_left _ (mem_append_left _ ?_)
  rw [zip_map_right]
  exact mem_map.2 ⟨_, hmem, rfl⟩

theorem lookup_rolledRow_count {spec : MetricSpec} (hmem : (spec, name) ∈ b.namedMetrics) (hcount : spec.typ = .integer .count) :
    (b.rolledRow key (b.accumulate group)).lookup name = some (.ofU64 (.ofNat group.length)) := by
  have hname : name ∈ b.countNames := by
    rw [countNames_eq]
    exact mem_map.2 ⟨(spec, name), mem_filter.2 ⟨hmem, decide_eq_true hcount⟩, rfl⟩
  rw [rolledRow_eq]
  refine HashMap.lookup_insertAll (nodup_rolledFields h hlen group) ?_ _
  refine mem_append_left _ (mem_append_right _ (mem_map.2 ⟨name, hname, ?_⟩))
  rw [count_accumulate]

/-- The sum of a metric, if it is finite. -/
theorem lookup_rolledRow_sum {spec : MetricSpec} (hmem : (spec, name) ∈ b.namedMetrics) (hsum : spec.typ ≠ .integer .count) :
    (b.rolledRow key (b.accumulate group)).lookup name =
      (((group.map fun row => (row.lookup (spec.fieldName.getD name)).bind jsonToF64).foldl addInput none).filter (·.isFinite)).map .ofF64 := by
  have hmetric := mem_sumMetrics hmem hsum
  have hname : name ∈ b.sumMetrics.map (·.1) := mem_map.2 ⟨_, hmetric, rfl⟩
  rw [rolledRow_eq, ← lookup_accumulate h.nodup_sums hmetric group]
  cases hfinite : ((b.accumulate group).sums.lookup name).filter (·.isFinite) with
  | some sum =>
    obtain ⟨hlookup, hfinite⟩ := Option.filter_eq_some_iff.1 hfinite
    refine HashMap.lookup_insertAll (nodup_rolledFields h hlen group) (mem_append_right _ (mem_map.2 ⟨⟨name, sum⟩, ?_, rfl⟩)) _
    exact mem_filter.2 ⟨AList.mem_lookup_iff.1 hlookup, hfinite⟩
  | none =>
    -- neither a dimension nor a count has its name
    refine HashMap.lookup_insertAll_of_notMem (fun hfield => ?_) _
    obtain ⟨hdims, hmetrics, hdisjoint⟩ := nodup_append.1 h.nodup_fields
    obtain ⟨-, -, hcountSum⟩ := nodup_append.1 hmetrics
    obtain ⟨⟨_, x⟩, hin, rfl⟩ := mem_map.1 hfield
    rcases mem_append.1 hin with hin | hin
    · rcases mem_append.1 hin with hin | hin
      · exact hdisjoint _ (of_mem_zip hin).1 _ (mem_append_right _ hname) rfl
      · obtain ⟨_, hcount, heq⟩ := mem_map.1 hin
        cases heq
        exact hcountSum _ hcount _ hname rfl
    · obtain ⟨⟨_, sum⟩, hsum, heq⟩ := mem_map.1 hin
      cases heq
      obtain ⟨hentry, hsumFinite⟩ := mem_filter.1 hsum
      rw [AList.mem_lookup_iff.2 hentry, Option.filter_some, if_pos hsumFinite] at hfinite
      cases hfinite

end Fields

/-! ## Its cells -/

/-- What a dimension's text is stored as. -/
def cellOf (schema : DimensionSchema) (dim : Option Utf8) : StoredCell :=
  match schema.dimType with
  | .string => dim.elim .null .text
  | .long => (dim.bind fun s => jsonToI64 (.string s)).elim .null .long

/-- The texts that keys are made of. -/
structure KeyText (b : BatchIngester) (schema : DimensionSchema) (dim : Option Utf8) : Prop where
  notNull : b.legacy = true → dim ≠ none
  long : schema.dimType = .long → ∀ s, dim = some s → ∃ n, s = longText n

section Cells

variable {ι : Type} {xs : List ι} {f : ι → Int64 × Row} {col : ColumnData}

theorem cells_buildDimension {schema : DimensionSchema} {dim : ι → Option Utf8}
    (hlookup : ∀ x ∈ xs, (f x).2.lookup schema.name = some (dimJson (dim x))) (hkey : ∀ x ∈ xs, b.KeyText schema (dim x))
    (h : b.buildDimension schema (xs.map f) = .ok col) : col.cells = xs.map fun x => cellOf schema (dim x) := by
  unfold buildDimension at h
  cases htype : schema.dimType with
  | string =>
    simp only [htype] at h
    have hnotArray : ((xs.map f).any fun row => isArray (row.2.lookup schema.name)) = false := by
      rw [any_map, any_eq_false]
      intro x hx
      simp only [Function.comp_apply, hlookup x hx]
      cases dim x <;> simp [dimJson, isArray]
    unfold buildStringColumn at h
    simp only [hnotArray, Bool.not_false, if_true] at h
    cases h
    simp only [ColumnData.cells, map_map]
    refine map_congr_left fun x hx => ?_
    have hnull := (hkey x hx).notNull
    simp only [Function.comp_apply, hlookup x hx, cellOf, htype]
    cases hdim : dim x with
    | none =>
      have hlegacy : b.legacy = false := by
        rw [← Bool.not_eq_true]
        exact fun hl => hnull hl hdim
      simp [dimJson, scalarText, hlegacy]
    | some s => rfl
  | long =>
    simp only [htype] at h
    cases h
    have hvalues : (xs.map f).map (fun row => (row.2.lookup schema.name).bind jsonToI64) = xs.map fun x =>
      (dim x).bind fun s => jsonToI64 (.string s) := by
      rw [map_map]
      refine map_congr_left fun x hx => ?_
      simp only [Function.comp_apply, hlookup x hx]
      cases dim x <;> rfl
    have hcell : ∀ x ∈ xs, cellOf schema (dim x) = ((dim x).bind fun s => jsonToI64 (.string s)).elim .null .long := by
      intro x _
      rw [cellOf, htype]
    unfold buildLongColumn
    rw [hvalues]
    simp only
    split_ifs with hlegacy hall
    · simp only [ColumnData.cells, map_map]
      refine map_congr_left fun x hx => ?_
      rw [hcell x hx]
      obtain ⟨s, hs⟩ := Option.ne_none_iff_exists'.1 ((hkey x hx).notNull hlegacy)
      obtain ⟨n, rfl⟩ := (hkey x hx).long htype s hs
      simp [hs]
    · simp only [ColumnData.cells, filterMap_map, Function.id_comp, map_filterMap]
      rw [← filterMap_eq_map]
      refine filterMap_congr fun x hx => ?_
      rw [Function.comp_apply, hcell x hx]
      have hsome := all_eq_true.1 hall _ (mem_map.2 ⟨x, hx, rfl⟩)
      cases hv : (dim x).bind fun s => jsonToI64 (.string s) with
      | none => simp [hv] at hsome
      | some n => rfl
    · simp only [ColumnData.cells, map_map]
      exact map_congr_left fun x hx => (hcell x hx).symm

theorem asI64_ofU64 {n : UInt64} (h : n.toNat < 2 ^ 63) : Json.asI64 (.ofU64 n) = some (Int64.ofNat n.toNat) := by
  have hlt : (n.toNat : ℤ) < 2 ^ 63 := by exact_mod_cast h
  rw [Json.ofU64, Json.asI64, if_pos hlt, Int64.ofInt_eq_ofNat]

theorem jsonToI64_ofU64 {n : ℕ} (h : n < 2 ^ 63) : jsonToI64 (.ofU64 (.ofNat n)) = some (Int64.ofNat n) := by
  have hn : (UInt64.ofNat n).toNat = n := UInt64.toNat_ofNat_of_lt' (by simp only [UInt64.size]; omega)
  have hint := asI64_ofU64 (n := .ofNat n) (by rw [hn]; exact h)
  rw [hn, Json.ofU64] at hint
  rw [Json.ofU64, jsonToI64, hint]

theorem cells_buildMetric_count {spec : MetricSpec} {name : Utf8} {size : ι → ℕ} (hcount : spec.typ = .integer .count)
    (hlookup : ∀ x ∈ xs, (f x).2.lookup name = some (.ofU64 (.ofNat (size x)))) (hsize : ∀ x ∈ xs, size x < 2 ^ 63) :
    (b.buildMetric true spec name (xs.map f)) = .long (xs.map fun x => Int64.ofNat (size x)) := by
  rw [buildMetric, if_pos hcount, map_map]
  refine congrArg _ (map_congr_left fun x hx => ?_)
  rw [Function.comp_apply, if_pos rfl, hlookup x hx, Option.bind_some, jsonToI64_ofU64 (hsize x hx), Option.getD_some]

/-- A sum as it is stored: nothing that is not finite, and in the legacy mode no null. -/
def sumCell (b : BatchIngester) (sum : Option F64) : StoredCell :=
  match sum.filter (·.isFinite) with
  | some x => .double x
  | none => if b.legacy then .double (.zero false) else .null

theorem jsonToF64_ofF64 {x : F64} (h : x.isFinite = true) : jsonToF64 (.ofF64 x) = some x := by
  simp [Json.ofF64, jsonToF64, Json.asF64, h]

theorem cells_buildMetric_sum {spec : MetricSpec} {name : Utf8} {sum : ι → Option F64} (hsum : spec.typ ≠ .integer .count)
    (hlookup : ∀ x ∈ xs, (f x).2.lookup name = ((sum x).filter (·.isFinite)).map .ofF64) :
    (b.buildMetric true spec name (xs.map f)).cells = xs.map fun x => b.sumCell (sum x) := by
  rw [buildMetric, if_neg hsum, if_pos rfl, buildMetricColumn, ColumnData.cells, map_map, map_map]
  refine map_congr_left fun x hx => ?_
  simp only [Function.comp_apply, hlookup x hx, sumCell]
  cases hfinite : (sum x).filter (·.isFinite) with
  | none => cases b.legacy <;> rfl
  | some y =>
    have hy := (Option.filter_eq_some_iff.1 hfinite).2
    have hnan : y ≠ .nan := fun h => by rw [h] at hy; cases hy
    simp only [Option.map_some, Option.bind_some, jsonToF64_ofF64 hy, Option.getD_some, if_neg hnan]

end Cells

end BatchIngester

end FerroDruid.Ingest
