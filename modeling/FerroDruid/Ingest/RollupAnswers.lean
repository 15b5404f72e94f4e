import FerroDruid.Aggregator.ScatterGather
import FerroDruid.Ingest.RollupSegment
import Mathlib.Algebra.BigOperators.Ring.Finset
/-!
# Rollup and answers

What a rolled segment has to hold for its rows to stand for the raw ones, and when it
does: every metric that is not a count is a sum of floats, whatever its type.
-/

namespace FerroDruid.Ingest

open Lib Aggregator

/-! ## What a rollup stands for -/

namespace StoredCell

/-- A cell is the answer of an aggregator, as a number. -/
def Is : StoredCell → Json → Prop
  | .null, v => v = .null
  | .long n, v => v = .ofI64 n
  | .double x, v => ∃ n : Int64, v = .ofI64 n ∧ x.Represents n.toInt
  | _, _ => False

end StoredCell

/-- The integer that a field holds, if any. -/
def longInput (field : Utf8) (row : Row) : Option Int64 := ((row.lookup field).bind jsonToF64).map F64.toI64

namespace BatchIngester

/-- A dimension as it is typed. -/
def typedDim (b : BatchIngester) (schema : DimensionSchema) (row : Row) : StoredCell :=
  match schema.dimType with
  | .string => (b.scalarText (row.lookup schema.name)).elim .null .text
  | .long => ((row.lookup schema.name).bind jsonToI64).elim .null .long

/-- The truncated time and the typed dimensions. -/
def groupKey (b : BatchIngester) (granularity : String) (row : Row) : List StoredCell :=
  .long (truncateTimestamp b.chrono (b.timestampOf row) granularity) :: b.dimSchemas.map fun schema => b.typedDim schema row

/-- What a rolled row says its group is. -/
def storedKey (b : BatchIngester) (seg : SegmentData) (r : ℕ) : List (Option StoredCell) :=
  (timeName :: b.dimensionNames).map fun name => seg.cell name r

/-- The raw rows of the group that a rolled row says it is. -/
def rawRows (b : BatchIngester) (granularity : String) (rows : List Row) (seg : SegmentData) (r : ℕ) : List Row :=
  rows.filter fun row => (b.groupKey granularity row).map some = b.storedKey seg r

/-- One row for each group, with the answers of the aggregators. -/
structure Answered (b : BatchIngester) (granularity : String) (rows : List Row) (seg : SegmentData) : Prop where
  /-- A column for the time, for each dimension and for each metric. -/
  columns : seg.columns.keys.length = b.columnNames.length
  distinct : ((List.range seg.numRows).map (b.storedKey seg)).Nodup
  covers : ∀ key, key ∈ (List.range seg.numRows).map (b.storedKey seg) ↔ ∃ row ∈ rows, key = (b.groupKey granularity row).map some
  answers : ∀ r < seg.numRows, ∀ spec name, (spec, name) ∈ b.namedMetrics → ∀ agg, spec.typ = .integer agg →
    ∃ cell, seg.cell name r = some cell ∧
      cell.Is (run false agg ((b.rawRows granularity rows seg r).map fun row => (longInput (spec.fieldName.getD name) row).map .ofI64))
  counted : ∀ spec name, (spec, name) ∈ b.namedMetrics → spec.typ = .integer .count →
    ∃ counts, seg.columns.lookup name = some (.long counts) ∧ (counts.map Int64.toInt).sum = rows.length

end BatchIngester

/-- What is added up by the aggregator as the rollup adds it up, or counted. -/
def MetricType.adds : MetricType → Bool
  | integer agg => agg = .count ∨ agg = .longSum
  | other typ => typ.bytes = ascii "doubleSum"

namespace BatchIngester

/-- The rows are those of the groups, and what cannot be rolled up is refused. -/
structure RolledUp (b : BatchIngester) (granularity : String) (rows : List Row) (seg : SegmentData) : Prop
    extends Answered b granularity rows seg where
  refused : ∀ spec ∈ b.metricsSpecs, spec.typ.adds = true

/-! ## When it does -/

/-- Integers below 2 to the 53, or nothing. -/
def IntegerInputs (b : BatchIngester) (rows : List Row) : Prop :=
  ∀ row ∈ rows, ∀ spec name, (spec, name) ∈ b.namedMetrics → ∀ x, (row.lookup (spec.fieldName.getD name)).bind jsonToF64 = some x →
    ∃ n : ℤ, n.natAbs < 2 ^ 53 ∧ x = .ofInt n

/-- In the legacy mode, where a null would be stored as something else, none is to be
stored. -/
def NoNulls (b : BatchIngester) (rows : List Row) : Prop := ∀ row ∈ rows, ∀ schema ∈ b.dimSchemas, b.typedDim schema row ≠ .null

/-- The inputs of a group, added up with rounding, are what the aggregator finds: their
sum in 64 bits, their minimum or their maximum. -/
def SumAnswers (b : BatchIngester) (agg : IntegerSpec) (inputs : List Int64) : Prop :=
  (inputs = [] → b.legacy = false) ∧
    ∀ answer, total (combine agg) inputs = some answer → F64.roundedSum (inputs.map Int64.toInt) = answer.toInt

/-- Of every metric that is not a count, in every group. -/
def SumsAnswer (b : BatchIngester) (granularity : String) (rows : List Row) : Prop :=
  ∀ row ∈ rows, ∀ spec name, (spec, name) ∈ b.namedMetrics → ∀ agg, spec.typ = .integer agg → agg ≠ .count →
    b.SumAnswers agg ((rows.filter fun row' => b.groupKey granularity row' = b.groupKey granularity row).filterMap
      (longInput (spec.fieldName.getD name)))

variable {b : BatchIngester} {granularity : String} {rows : List Row}

/-! ## Keys -/

variable {schema : DimensionSchema} {dim : Option Utf8}

/-- The text of a key stands for the typed dimension, but a null in the legacy mode
stands for something else. -/
theorem dimKey_ok {row : Row} (h : b.dimKey schema row = .ok dim) :
    b.KeyText schema dim ∧ (cellOf schema dim = b.typedDim schema row ∨ (b.legacy = true ∧ b.typedDim schema row = .null)) := by
  unfold dimKey at h
  split at h
  · cases h
  · cases htype : schema.dimType with
    | string =>
      have hnotLong : ∀ {P : Prop}, schema.dimType = .long → P := fun hl => by rw [htype] at hl; cases hl
      simp only [htype] at h
      cases htext : b.scalarText (row.lookup schema.name) with
      | some s =>
        simp only [htext] at h
        cases h
        exact ⟨⟨fun _ => Option.some_ne_none _, hnotLong⟩, .inl (by simp [cellOf, typedDim, htype, htext])⟩
      | none =>
        simp only [htext] at h
        split_ifs at h with hlegacy <;> cases h
        · exact ⟨⟨fun _ => Option.some_ne_none _, hnotLong⟩, .inr ⟨hlegacy, by simp [typedDim, htype, htext]⟩⟩
        · exact ⟨⟨fun hl => absurd hl hlegacy, hnotLong⟩, .inl (by simp [cellOf, typedDim, htype, htext])⟩
    | long =>
      simp only [htype] at h
      cases hvalue : (row.lookup schema.name).bind jsonToI64 with
      | some n =>
        simp only [hvalue] at h
        cases h
        exact ⟨⟨fun _ => Option.some_ne_none _, fun _ s hs => ⟨n, (Option.some.inj hs).symm⟩⟩, .inl (by simp [cellOf, typedDim, htype, hvalue])⟩
      | none =>
        simp only [hvalue] at h
        split_ifs at h with hlegacy <;> cases h
        · exact ⟨⟨fun _ => Option.some_ne_none _, fun _ s hs => ⟨0, (Option.some.inj hs).symm⟩⟩, .inr ⟨hlegacy, by simp [typedDim, htype, hvalue]⟩⟩
        · exact ⟨⟨fun hl => absurd hl hlegacy, fun _ s hs => absurd hs.symm (Option.some_ne_none s)⟩, .inl (by simp [cellOf, typedDim, htype, hvalue])⟩

theorem KeyText.cellOf_ne_null (h : b.KeyText schema dim) (hlegacy : b.legacy = true) :
    cellOf schema dim ≠ .null := by
  obtain ⟨s, rfl⟩ := Option.ne_none_iff_exists'.1 (h.notNull hlegacy)
  cases htype : schema.dimType with
  | string => simp [cellOf, htype]
  | long =>
    obtain ⟨n, rfl⟩ := h.long htype s rfl
    simp [cellOf, htype]

/-- The texts of two keys that are stored alike are one text. -/
theorem KeyText.inj {dim' : Option Utf8} (h : b.KeyText schema dim) (h' : b.KeyText schema dim')
    (heq : cellOf schema dim = cellOf schema dim') : dim = dim' := by
  cases htype : schema.dimType with
  | string => cases dim <;> cases dim' <;> simp_all [cellOf]
  | long =>
    have hlong : ∀ s n, s = longText n → cellOf schema (some s) = .long n := by
      rintro s n rfl
      simp [cellOf, htype]
    have hnone : cellOf schema none = .null := by simp [cellOf, htype]
    cases dim with
    | none =>
      cases dim' with
      | none => rfl
      | some s' =>
        obtain ⟨n', hn'⟩ := h'.long htype s' rfl
        rw [hnone, hlong s' n' hn'] at heq
        cases heq
    | some s =>
      obtain ⟨n, hn⟩ := h.long htype s rfl
      cases dim' with
      | none =>
        rw [hnone, hlong s n hn] at heq
        cases heq
      | some s' =>
        obtain ⟨n', hn'⟩ := h'.long htype s' rfl
        rw [hlong s n hn, hlong s' n' hn', StoredCell.long.injEq] at heq
        rw [hn, hn', heq]

/-- A key made of the texts of its dimensions. -/
def ValidKey (b : BatchIngester) (key : RollupKey) : Prop := List.Forall₂ b.KeyText b.dimSchemas key.dims

theorem ValidKey.ne_null {key : RollupKey} (h : b.ValidKey key) (hlegacy : b.legacy = true) :
    ∀ cell ∈ List.zipWith cellOf b.dimSchemas key.dims, cell ≠ .null := by
  unfold ValidKey at h
  generalize b.dimSchemas = schemas at h
  generalize key.dims = dims at h
  induction h with
  | nil => exact List.forall_mem_nil _
  | cons hdim _ ih => exact List.forall_mem_cons.2 ⟨hdim.cellOf_ne_null hlegacy, ih⟩

/-- A key as it is stored. -/
def storedOf (b : BatchIngester) (key : RollupKey) : List StoredCell := .long key.ts :: List.zipWith cellOf b.dimSchemas key.dims

theorem storedOf_inj {key key' : RollupKey} (h : b.ValidKey key) (h' : b.ValidKey key') (heq : b.storedOf key = b.storedOf key') : key = key' := by
  have hdims : ∀ {schemas : List DimensionSchema} {dims dims' : List (Option Utf8)}, List.Forall₂ b.KeyText schemas dims →
      List.Forall₂ b.KeyText schemas dims' → List.zipWith cellOf schemas dims = List.zipWith cellOf schemas dims' → dims = dims' := by
    intro schemas dims dims' h
    induction h generalizing dims' with
    | nil =>
      rintro ⟨⟩ -
      rfl
    | cons hdim _ ih =>
      rintro (_ | ⟨hdim', hrest⟩) heq
      rw [List.zipWith_cons_cons, List.zipWith_cons_cons, List.cons.injEq] at heq
      rw [hdim.inj hdim' heq.1, ih hrest heq.2]
  rw [storedOf, storedOf, List.cons.injEq, StoredCell.long.injEq] at heq
  rw [RollupKey.mk.injEq]
  exact ⟨heq.1, hdims h h' heq.2⟩

section

variable {row : Row} (hok : b.rollupKey granularity (b.timestampOf row, row) = .ok (b.keyOf granularity row))
include hok

theorem keyOf_ok : (b.keyOf granularity row).ts = truncateTimestamp b.chrono (b.timestampOf row) granularity ∧
    List.Forall₂ (fun schema dim => b.dimKey schema row = .ok dim) b.dimSchemas (b.keyOf granularity row).dims := by
  obtain ⟨dims, hdims, hkey⟩ := bind_eq_ok.1 hok
  rw [← Except.ok.inj hkey]
  exact ⟨rfl, mapM_eq_ok.1 hdims⟩

theorem validKey_keyOf : b.ValidKey (b.keyOf granularity row) := (keyOf_ok hok).2.imp fun _ _ h => (dimKey_ok h).1

/-- What is stored as the key of a group is the key of its rows, unless a null was to
be stored in the legacy mode. -/
theorem storedOf_keyOf (hnulls : b.legacy = true → ∀ schema ∈ b.dimSchemas, b.typedDim schema row ≠ .null) :
    b.storedOf (b.keyOf granularity row) = b.groupKey granularity row := by
  obtain ⟨hts, hdims⟩ := keyOf_ok hok
  rw [storedOf, groupKey, hts]
  congr 1
  generalize (b.keyOf granularity row).dims = dims at hdims
  generalize b.dimSchemas = schemas at hdims hnulls
  induction hdims with
  | nil => rfl
  | @cons schema dim _ _ hdim _ ih =>
    rw [List.zipWith_cons_cons, List.map_cons, ih fun hl s hs => hnulls hl s (List.mem_cons_of_mem _ hs)]
    rcases (dimKey_ok hdim).2 with hcell | ⟨hlegacy, hnull⟩
    · rw [hcell]
    · exact absurd hnull (hnulls hlegacy schema (List.mem_cons_self ..))

end

/-! ## The stored rows -/

section

variable {keys : List RollupKey} {parsed : List (Int64 × Row)} {seg : SegmentData}
  (hseg : b.ingestParsed parsed true = .ok seg)
  (hsorted : parsed.insertionSort (fun x y => x.1.toInt ≤ y.1.toInt) = keys.map (b.rolledGroup granularity rows))
include hseg hsorted

theorem numRows_eq : seg.numRows = keys.length := by rw [(ingestParsed_ok hseg hsorted).1, List.length_map]

/-- There is a column for every name exactly if the names differ. -/
theorem columns_iff : seg.columns.keys.length = b.columnNames.length ↔ b.DistinctNames := by
  obtain ⟨-, cols, hcols, heq⟩ := ingestParsed_ok hseg hsorted
  rw [heq, DistinctNames, ← map_columnList hcols.length_eq, List.length_map]
  exact ⟨HashMap.nodup_of_length_keys_insertAll, HashMap.length_keys_insertAll⟩

variable (hnames : b.DistinctNames) (hvalid : ∀ key ∈ keys, b.ValidKey key)
include hnames

/-- With different names every column is found. -/
theorem exists_columns : ∃ cols,
    List.Forall₂ (fun schema col => b.buildDimension schema (keys.map (b.rolledGroup granularity rows)) = .ok col) b.dimSchemas cols ∧
      ∀ name col, (name, col) ∈ b.columnList true (keys.map (b.rolledGroup granularity rows)) cols → seg.columns.lookup name = some col := by
  obtain ⟨-, cols, hcols, heq⟩ := ingestParsed_ok hseg hsorted
  refine ⟨cols, hcols, fun name col hmem => ?_⟩
  rw [heq]
  refine HashMap.lookup_insertAll ?_ hmem _
  rw [map_columnList hcols.length_eq]
  exact hnames

theorem cell_time (r : ℕ) : seg.cell timeName r = keys[r]?.map fun key => .long key.ts := by
  obtain ⟨cols, -, hcolumns⟩ := exists_columns hseg hsorted hnames
  have hlookup := hcolumns timeName _ (List.mem_append_left _ (List.mem_cons_self ..))
  rw [SegmentData.cell, hlookup, Option.bind_some, ColumnData.cells, List.map_map, List.map_map, List.getElem?_map]
  rfl

/-- The column of a metric. -/
theorem lookup_metric {spec : MetricSpec} {name : Utf8} (hmem : (spec, name) ∈ b.namedMetrics) :
    seg.columns.lookup name = some (b.buildMetric true spec name (keys.map (b.rolledGroup granularity rows))) := by
  obtain ⟨cols, -, hcolumns⟩ := exists_columns hseg hsorted hnames
  exact hcolumns name _ (List.mem_append_right _ (List.mem_map.2 ⟨(spec, name), hmem, rfl⟩))

include hvalid

theorem cell_dim {i : ℕ} (hi : i < b.dimSchemas.length) (r : ℕ) :
    seg.cell b.dimSchemas[i].name r = keys[r]?.map fun key => cellOf b.dimSchemas[i] (key.dims[i]?.getD none) := by
  obtain ⟨cols, hcols, hcolumns⟩ := exists_columns hseg hsorted hnames
  have hi' : i < cols.length := hcols.length_eq ▸ hi
  have hlookup : seg.columns.lookup b.dimSchemas[i].name = some cols[i] := by
    refine hcolumns _ _ (List.mem_append_left _ (List.mem_cons_of_mem _ (List.mem_iff_getElem.2 ⟨i, ?_, ?_⟩)))
    · simp [dimensionNames, hi, hi']
    · simp [dimensionNames]
  have hcells : cols[i].cells = keys.map fun key => cellOf b.dimSchemas[i] (key.dims[i]?.getD none) := by
    refine cells_buildDimension (b := b) (fun key hkey => ?_) (fun key hkey => ?_) (List.forall₂_iff_get.1 hcols |>.2 i hi hi')
    · have hlen := (hvalid key hkey).length_eq
      refine lookup_rolledRow_dim hnames hlen.symm _ (List.mem_iff_getElem.2 ⟨i, ?_, ?_⟩)
      · simp [dimensionNames, hi, ← hlen]
      · simp [dimensionNames, ← hlen, hi]
    · have hlen := (hvalid key hkey).length_eq
      have hkeyText := (List.forall₂_iff_get.1 (hvalid key hkey)).2 i hi (hlen ▸ hi)
      simpa [← hlen, hi] using hkeyText
  rw [SegmentData.cell, hlookup, Option.bind_some, hcells, List.getElem?_map]

/-- What is stored row by row are the keys. -/
theorem storedKey_eq {r : ℕ} (hr : r < keys.length) : b.storedKey seg r = (b.storedOf keys[r]).map some := by
  have hlen := (hvalid keys[r] (List.getElem_mem hr)).length_eq
  rw [storedKey, storedOf, List.map_cons, List.map_cons, cell_time hseg hsorted hnames, List.getElem?_eq_getElem hr, Option.map_some]
  congr 1
  refine List.ext_getElem (by simp [dimensionNames, hlen]) fun i hi _ => ?_
  have hi' : i < b.dimSchemas.length := by simpa [dimensionNames] using hi
  have hcell := cell_dim hseg hsorted hnames hvalid hi' r
  simpa [dimensionNames, List.getElem?_eq_getElem hr, ← hlen, hi'] using hcell

theorem map_storedKey : (List.range seg.numRows).map (b.storedKey seg) = keys.map fun key => (b.storedOf key).map some := by
  refine List.ext_getElem (by simp [numRows_eq hseg hsorted]) fun r hr _ => ?_
  have hr' : r < keys.length := by simpa [numRows_eq hseg hsorted] using hr
  simp [storedKey_eq hseg hsorted hnames hvalid hr']

end

/-! ## The answers -/

section

variable {field : Utf8} {group : List Row}
  (hinputs : ∀ row ∈ group, ∀ x, (row.lookup field).bind jsonToF64 = some x → ∃ n : ℤ, n.natAbs < 2 ^ 53 ∧ x = .ofInt n)
include hinputs

/-- Integer inputs added up as floats. -/
theorem foldl_addInput (acc : Option F64) :
    (group.map fun row => (row.lookup field).bind jsonToF64).foldl addInput acc =
      if group.filterMap (longInput field) = [] then acc
      else some (((group.filterMap (longInput field)).map Int64.toInt).foldl (fun acc n => acc.add (.ofInt n)) (acc.getD (.zero false))) := by
  induction group generalizing acc with
  | nil => rfl
  | cons row group ih =>
    obtain ⟨hrow, hgroup⟩ := List.forall_mem_cons.1 hinputs
    rw [List.map_cons, List.foldl_cons, ih hgroup]
    cases hx : (row.lookup field).bind jsonToF64 with
    | none =>
      have hlong : longInput field row = none := by rw [longInput, hx]; rfl
      rw [List.filterMap_cons_none hlong]
      rfl
    | some x =>
      obtain ⟨n, hn, rfl⟩ := hrow x hx
      have hlong : longInput field row = some (Int64.ofInt n) := by rw [longInput, hx, Option.map_some, F64.toI64_ofInt hn.le]
      have htoInt : (Int64.ofInt n).toInt = n := Int64.toInt_ofInt_of_le (by omega) (by omega)
      rw [List.filterMap_cons_some hlong, if_neg (List.cons_ne_nil _ _), List.map_cons, List.foldl_cons, htoInt, addInput]
      split_ifs with hnil
      · rw [hnil]
        rfl
      · rfl

theorem inputs_bounded : ∀ n ∈ (group.filterMap (longInput field)).map Int64.toInt, n.natAbs ≤ 2 ^ 53 := by
  intro k hk
  obtain ⟨v, hv, rfl⟩ := List.mem_map.1 hk
  obtain ⟨row, hrow, hlong⟩ := List.mem_filterMap.1 hv
  obtain ⟨x, hx, rfl⟩ := Option.map_eq_some_iff.1 hlong
  obtain ⟨n, hn, rfl⟩ := hinputs row hrow x hx
  rw [F64.toI64_ofInt hn.le, Int64.toInt_ofInt_of_le (by omega) (by omega)]
  exact hn.le

omit hinputs in
/-- An aggregator finds the total of the inputs. -/
theorem run_inputs {agg : IntegerSpec} (hagg : agg ≠ .count) :
    run false agg (group.map fun row => (longInput field row).map .ofI64) =
    (total (combine agg) (group.filterMap (longInput field))).elim .null .ofI64 := by
  have hvalues : (group.map fun row => (longInput field row).map .ofI64).filterMap (extract agg) = group.filterMap (longInput field) := by
    rw [List.filterMap_map]
    refine List.filterMap_congr fun row _ => ?_
    cases hlong : longInput field row with
    | none => cases agg <;> simp_all [extract]
    | some n => cases agg <;> simp_all [extract, jsonAsI64Lossy]
  rw [run_eq, rowsTotal, hvalues]
  cases total (combine agg) (group.filterMap (longInput field)) <;> cases agg <;> simp_all [answer]

/-- A stored sum is the answer of an aggregator when the inputs add up to it. -/
theorem sumCell_is_iff {agg : IntegerSpec} (hagg : agg ≠ .count) :
    (b.sumCell ((group.map fun row => (row.lookup field).bind jsonToF64).foldl addInput none)).Is
        (run false agg (group.map fun row => (longInput field row).map .ofI64)) ↔
      b.SumAnswers agg (group.filterMap (longInput field)) := by
  have hfinite := F64.isFinite_sumOfInts (inputs_bounded hinputs)
  have hsum := F64.sumOfInts_represents (inputs_bounded hinputs)
  rw [foldl_addInput hinputs, run_inputs hagg, SumAnswers]
  generalize group.filterMap (longInput field) = inputs at hfinite hsum
  by_cases hnil : inputs = []
  · subst hnil
    have hnone : total (combine agg) [] = none := rfl
    rw [if_pos rfl, hnone]
    cases hlegacy : b.legacy <;> simp [sumCell, hlegacy, StoredCell.Is, Json.ofI64]
  · obtain ⟨v, hv⟩ := Option.ne_none_iff_exists'.1 fun h => hnil ((total_eq_none_iff).1 h : inputs = [])
    rw [if_neg hnil, hv]
    have hcell : b.sumCell (some (F64.sumOfInts (inputs.map Int64.toInt))) = .double (F64.sumOfInts (inputs.map Int64.toInt)) := by
      rw [sumCell, Option.filter_some, if_pos hfinite]
    show (b.sumCell (some (F64.sumOfInts (inputs.map Int64.toInt)))).Is (.ofI64 v) ↔ _
    rw [hcell]
    simp [StoredCell.Is, hnil, Json.ofI64_inj, hsum.iff_eq]

end

/-- As long as the inputs stay within 53 bits together, a sum is always right, and a
minimum or a maximum is if it is the sum. -/
theorem sumAnswers_iff_of_small {agg : IntegerSpec} {inputs : List Int64} (hsmall : ((inputs.map Int64.toInt).map Int.natAbs).sum ≤ 2 ^ 53) :
    b.SumAnswers agg inputs ↔
      (inputs = [] → b.legacy = false) ∧ ∀ answer, total (combine agg) inputs = some answer → (inputs.map Int64.toInt).sum = answer.toInt := by
  rw [SumAnswers, F64.roundedSum_of_small hsmall]

/-! ## When the segment stands for the rows -/

section

variable {keys : List RollupKey} {parsed : List (Int64 × Row)} {seg : SegmentData}
  (hseg : b.ingestParsed parsed true = .ok seg)
  (hsorted : parsed.insertionSort (fun x y => x.1.toInt ≤ y.1.toInt) = keys.map (b.rolledGroup granularity rows))
  (hnames : b.DistinctNames) (hvalid : ∀ key ∈ keys, b.ValidKey key)
include hseg hsorted hnames hvalid

theorem lookup_count {spec : MetricSpec} {name : Utf8} (hmem : (spec, name) ∈ b.namedMetrics) (hcount : spec.typ = .integer .count)
    (hlen : rows.length < 2 ^ 63) :
    seg.columns.lookup name = some (.long (keys.map fun key => Int64.ofNat (b.groupOf granularity rows key).length)) := by
  rw [lookup_metric hseg hsorted hnames hmem]
  refine congrArg some (cells_buildMetric_count hcount (fun key hkey => ?_) fun key _ => ?_)
  · exact lookup_rolledRow_count hnames (hvalid key hkey).length_eq.symm _ hmem hcount
  · exact (List.length_filter_le _ _).trans_lt hlen

theorem cell_sum {spec : MetricSpec} {name : Utf8} (hmem : (spec, name) ∈ b.namedMetrics) (hsum : spec.typ ≠ .integer .count) {r : ℕ}
    (hr : r < keys.length) :
    seg.cell name r = some (b.sumCell (((b.groupOf granularity rows keys[r]).map fun row =>
      (row.lookup (spec.fieldName.getD name)).bind jsonToF64).foldl addInput none)) := by
  rw [SegmentData.cell, lookup_metric hseg hsorted hnames hmem, Option.bind_some, cells_buildMetric_sum (b := b) hsum fun key hkey =>
    lookup_rolledRow_sum hnames (hvalid key hkey).length_eq.symm _ hmem hsum, List.getElem?_map, List.getElem?_eq_getElem hr, Option.map_some]

end

/-- The sizes of the groups add up to the number of rows. -/
theorem sum_length_groupOf {keys : List RollupKey} (hnodup : keys.Nodup) (hmem : ∀ key, key ∈ keys ↔ key ∈ rows.map (b.keyOf granularity)) :
    (keys.map fun key => (b.groupOf granularity rows key).length).sum = rows.length := by
  have hperm : keys.Perm (rows.map (b.keyOf granularity)).dedup :=
    (List.perm_ext_iff_of_nodup hnodup (List.nodup_dedup _)).2 fun key => by rw [List.mem_dedup, hmem]
  have hcount : ∀ key, (b.groupOf granularity rows key).length = (rows.map (b.keyOf granularity)).count key := by
    intro key
    rw [groupOf, ← List.countP_eq_length_filter, List.count, List.countP_map]
    exact List.countP_congr fun row _ => by simp
  simp only [hcount]
  rw [(hperm.map _).sum_eq, List.sum_map_count_dedup_eq_length, List.length_map]

section

variable (hok : ∀ row ∈ rows, b.rollupKey granularity (b.timestampOf row, row) = .ok (b.keyOf granularity row))
  (hnulls : b.legacy = true → b.NoNulls rows)
include hok hnulls

/-- Rows with one key as text are the rows with one typed key. -/
theorem groupOf_keyOf {row : Row} (hrow : row ∈ rows) :
    b.groupOf granularity rows (b.keyOf granularity row) = rows.filter fun row' => b.groupKey granularity row' = b.groupKey granularity row := by
  refine List.filter_congr fun row' hrow' => decide_eq_decide.2 ?_
  rw [← storedOf_keyOf (hok row hrow) fun hl => hnulls hl row hrow, ← storedOf_keyOf (hok row' hrow') fun hl => hnulls hl row' hrow']
  exact ⟨congrArg _, storedOf_inj (validKey_keyOf (hok row' hrow')) (validKey_keyOf (hok row hrow))⟩

end

theorem answered_iff (b : BatchIngester) (granularity : String) (rows : List Row) (seg : SegmentData)
    (h : b.ingestWithRollup rows granularity = .ok seg) (hinputs : b.IntegerInputs rows) (hlen : rows.length < 2 ^ 63) :
    b.Answered granularity rows seg ↔ b.DistinctNames ∧ (b.legacy = true → b.NoNulls rows) ∧ b.SumsAnswer granularity rows := by
  obtain ⟨hok, keys, hnodup, hmem, parsed, hseg, hsorted⟩ := ingestWithRollup_ok h
  have hvalid : ∀ key ∈ keys, b.ValidKey key := by
    intro key hkey
    obtain ⟨row, hrow, rfl⟩ := List.mem_map.1 ((hmem key).1 hkey)
    exact validKey_keyOf (hok row hrow)
  have hsome : Function.Injective (List.map (some : StoredCell → Option StoredCell)) := List.map_injective_iff.2 (Option.some_injective _)
  have hnumRows := numRows_eq hseg hsorted
  -- the raw rows of a rolled row are those of its group
  have hraw : b.DistinctNames → (b.legacy = true → b.NoNulls rows) → ∀ {r : ℕ} (hr : r < keys.length), ∀ row ∈ rows, b.keyOf granularity row = keys[r] →
      b.rawRows granularity rows seg r = b.groupOf granularity rows keys[r] := by
    intro hnames hnulls r hr row hrow hkey
    rw [← hkey, groupOf_keyOf hok hnulls hrow, rawRows]
    refine List.filter_congr fun row' _ => decide_eq_decide.2 ?_
    rw [storedKey_eq hseg hsorted hnames hvalid hr, ← hkey, storedOf_keyOf (hok row hrow) fun hl => hnulls hl row hrow]
    exact hsome.eq_iff
  have hinputs' : ∀ {spec name}, (spec, name) ∈ b.namedMetrics → ∀ key, ∀ row ∈ b.groupOf granularity rows key, ∀ x,
      (row.lookup (spec.fieldName.getD name)).bind jsonToF64 = some x → ∃ n : ℤ, n.natAbs < 2 ^ 53 ∧ x = .ofInt n :=
    fun hname _ row hrow => hinputs row (List.mem_filter.1 hrow).1 _ _ hname
  constructor
  · intro hrolled
    have hnames := (columns_iff hseg hsorted).1 hrolled.columns
    have hstored := map_storedKey hseg hsorted hnames hvalid
    have hnulls : b.legacy = true → b.NoNulls rows := by
      intro hlegacy row hrow schema hschema hnull
      have hcover := (hrolled.covers _).2 ⟨row, hrow, rfl⟩
      rw [hstored] at hcover
      obtain ⟨key, hkey, heq⟩ := List.mem_map.1 hcover
      have htyped : b.typedDim schema row ∈ List.zipWith cellOf b.dimSchemas key.dims := by
        rw [(List.cons.inj (hsome heq)).2]
        exact List.mem_map.2 ⟨schema, hschema, rfl⟩
      exact (hvalid key hkey).ne_null hlegacy _ htyped hnull
    refine ⟨hnames, hnulls, fun row hrow spec name hname agg hagg hne => ?_⟩
    obtain ⟨r, hr, hkey⟩ := List.mem_iff_getElem.1 ((hmem _).2 (List.mem_map.2 ⟨row, hrow, rfl⟩))
    have hsum : spec.typ ≠ .integer .count := fun hcount => hne (MetricType.integer.inj (hagg.symm.trans hcount))
    obtain ⟨cell, hcell, his⟩ := hrolled.answers r (hnumRows ▸ hr) spec name hname agg hagg
    rw [cell_sum hseg hsorted hnames hvalid hname hsum hr] at hcell
    rw [← Option.some.inj hcell, hraw hnames hnulls hr row hrow hkey.symm, sumCell_is_iff (hinputs' hname _) hne, hkey,
      groupOf_keyOf hok hnulls hrow] at his
    exact his
  · rintro ⟨hnames, hnulls, hsums⟩
    have hstored := map_storedKey hseg hsorted hnames hvalid
    refine ⟨(columns_iff hseg hsorted).2 hnames, ?_, fun key => ?_, fun r hr spec name hname agg hagg => ?_, fun spec name hname hcount => ?_⟩
    · rw [hstored]
      exact hnodup.map_on fun key hkey key' hkey' heq => storedOf_inj (hvalid key hkey) (hvalid key' hkey') (hsome heq)
    · rw [hstored, List.mem_map]
      constructor
      · rintro ⟨key, hkey, rfl⟩
        obtain ⟨row, hrow, rfl⟩ := List.mem_map.1 ((hmem key).1 hkey)
        exact ⟨row, hrow, by rw [storedOf_keyOf (hok row hrow) fun hl => hnulls hl row hrow]⟩
      · rintro ⟨row, hrow, rfl⟩
        exact ⟨b.keyOf granularity row, (hmem _).2 (List.mem_map.2 ⟨row, hrow, rfl⟩), by
          rw [storedOf_keyOf (hok row hrow) fun hl => hnulls hl row hrow]⟩
    · have hr' : r < keys.length := hnumRows ▸ hr
      obtain ⟨row, hrow, hkey⟩ := List.mem_map.1 ((hmem keys[r]).1 (List.getElem_mem hr'))
      rw [hraw hnames hnulls hr' row hrow hkey]
      by_cases hcount : agg = .count
      · subst hcount
        refine ⟨.long (Int64.ofNat (b.groupOf granularity rows keys[r]).length), ?_, ?_⟩
        · rw [SegmentData.cell, lookup_count hseg hsorted hnames hvalid hname hagg hlen, Option.bind_some, ColumnData.cells, List.map_map,
            List.getElem?_map, List.getElem?_eq_getElem hr', Option.map_some, Function.comp_apply]
        · rw [run_count, List.length_map]
          rfl
      · have hsum : spec.typ ≠ .integer .count := fun hcount' => hcount (MetricType.integer.inj (hagg.symm.trans hcount'))
        refine ⟨_, cell_sum hseg hsorted hnames hvalid hname hsum hr', ?_⟩
        rw [sumCell_is_iff (hinputs' hname _) hcount, ← hkey, groupOf_keyOf hok hnulls hrow]
        exact hsums row hrow spec name hname agg hagg hcount
    · refine ⟨_, lookup_count hseg hsorted hnames hvalid hname hcount hlen, ?_⟩
      have hcounts : (keys.map fun key => Int64.ofNat (b.groupOf granularity rows key).length).map Int64.toInt =
          (keys.map fun key => (b.groupOf granularity rows key).length).map Nat.cast := by
        rw [List.map_map, List.map_map]
        exact List.map_congr_left fun key _ => Int64.toInt_ofNat_of_lt ((List.length_filter_le _ _).trans_lt hlen)
      rw [hcounts, ← sum_length_groupOf hnodup hmem, Nat.cast_list_sum]

end BatchIngester

/-! ## Two rows in one second -/

def dText : Utf8 := ⟨ascii "d", Eq.refl true⟩

def tText : Utf8 := ⟨ascii "t", Eq.refl true⟩

def xText : Utf8 := ⟨ascii "x", Eq.refl true⟩

def nText : Utf8 := ⟨ascii "n", Eq.refl true⟩

/-- The first minute of the epoch. -/
def firstMinute : Chrono where
  fromTimestampMillis ts := ⟨1970, 1, 1, 0, 0, (ts / 1000).toInt.toNat, (ts % 1000).toInt.toNat * 1000000⟩
  timestampMillis naive := .ofNat (naive.second * 1000 + naive.nanos / 1000000)

/-- A string dimension, the number of rows and a metric of `x`. -/
def ingesterOf (agg : IntegerSpec) : BatchIngester where
  dimSchemas := [⟨dText, .string⟩]
  metricsSpecs := [⟨.integer .count, some nText, none⟩, ⟨.integer agg, some xText, none⟩]
  extractTimestamp row := match (row.lookup tText).bind jsonToI64 with
    | some ts => .ok ts
    | none => .error (.timestamp row)
  chrono := firstMinute
  jsonText _ := BatchIngester.emptyText
  legacy := false

def rowAt (ts x : Int64) : Row := (((∅ : Row).insert tText (.ofI64 ts)).insert dText (.string nText)).insert xText (.ofI64 x)

/-- Three and five. -/
def twoRows : List Row := [rowAt 100 3, rowAt 900 5]

theorem integerInputs_twoRows (agg : IntegerSpec) : (ingesterOf agg).IntegerInputs twoRows := by
  have hread : ∀ row ∈ twoRows, ∀ field ∈ [nText, xText], ((row.lookup field).bind jsonToF64).all fun x =>
      x = .ofInt x.toI64.toInt ∧ x.toI64.toInt.natAbs < 2 ^ 53 := by decide +kernel
  intro row hrow spec name hname x hx
  have hfield : spec.fieldName.getD name ∈ [nText, xText] := by
    have hmem : (spec, name) ∈ [((⟨.integer .count, some nText, none⟩, nText) : MetricSpec × Utf8), (⟨.integer agg, some xText, none⟩, xText)] := hname
    simp only [List.mem_cons, Prod.mk.injEq, List.not_mem_nil, or_false] at hmem
    rcases hmem with ⟨rfl, rfl⟩ | ⟨rfl, rfl⟩ <;> simp
  have hx' := hread row hrow _ hfield
  rw [hx, Option.all_some, decide_eq_true_eq] at hx'
  exact ⟨_, hx'.2, hx'.1⟩

theorem ingest_twoRows (agg : IntegerSpec) (hagg : agg ≠ .count) : ∃ seg, (ingesterOf agg).ingestWithRollup twoRows "second" = .ok seg ∧
    seg.numRows = 1 ∧ seg.cell xText 0 = some (.double (.ofInt 8)) := by
  have hrun : ((ingesterOf agg).ingestWithRollup twoRows "second").toOption.map (fun seg => (seg.numRows, seg.cell xText 0)) =
      some (1, some (.double (.ofInt 8))) := by
    cases agg with
    | count => exact absurd rfl hagg
    | longSum | longMin | longMax => decide +kernel
  cases hseg : (ingesterOf agg).ingestWithRollup twoRows "second" with
  | error _ =>
    rw [hseg] at hrun
    cases hrun
  | ok seg =>
    rw [hseg] at hrun
    simp only [Except.toOption, Option.map_some, Option.some.injEq, Prod.mk.injEq] at hrun
    exact ⟨seg, rfl, hrun⟩

theorem sumAnswers_twoRows : (ingesterOf .longSum).SumsAnswer "second" twoRows := by
  have hgroup : ∀ row ∈ twoRows, (twoRows.filter fun row' => (ingesterOf .longSum).groupKey "second" row' =
      (ingesterOf .longSum).groupKey "second" row).filterMap (longInput xText) = [3, 5] := by decide +kernel
  intro row hrow spec name hname agg hagg hne
  have hmem : (spec, name) ∈ [((⟨.integer .count, some nText, none⟩, nText) : MetricSpec × Utf8),
    (⟨.integer .longSum, some xText, none⟩, xText)] := hname
  simp only [List.mem_cons, Prod.mk.injEq, List.not_mem_nil, or_false] at hmem
  rcases hmem with ⟨rfl, rfl⟩ | ⟨rfl, rfl⟩
  · exact absurd (MetricType.integer.inj hagg).symm hne
  · obtain rfl := MetricType.integer.inj hagg
    rw [Option.getD_none, hgroup row hrow]
    refine (BatchIngester.sumAnswers_iff_of_small (by decide)).2 ⟨nofun, fun answer hanswer => ?_⟩
    obtain rfl : 3 + 5 = answer := Option.some.inj hanswer
    decide

end FerroDruid.Ingest
