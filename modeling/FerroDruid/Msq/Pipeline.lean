import FerroDruid.Msq.Aggregate
import FerroDruid.Msq.Execute
import FerroDruid.Sql.Where
/-!
# What the stages of a plan put out

A shuffle rearranges its rows, so a plan without an aggregation puts out its input,
and one with an aggregation the groups of it. A query answers with these in order.
-/

namespace FerroDruid.Msq

open Lib Sql List

variable {text : JsonText} {sig : RowSignature} {config : EngineConfig} {rows out : List Row}

/-! ## Shuffles -/

/-- A partition that comes out of its buffer comes out as it went in. -/
theorem bufferPartition_eq {threshold : ℕ} (hplain : PlainRows rows) {drained : List Row} {spilled : ℕ}
    (h : bufferPartition text threshold rows = .ok (drained, spilled)) : drained = rows := by
  by_cases hread : Readable text threshold rows
  · obtain ⟨spilled', hrows⟩ := bufferPartition_of_readable hplain hread
    rw [hrows] at h
    exact (Prod.ext_iff.1 (Except.ok.inj h)).1.symm
  · obtain ⟨e, he⟩ := bufferPartition_of_not_readable hread
    rw [he] at h
    cases h

theorem shuffleWorker_rows {threshold nWorkers w : ℕ} {parts : List (List Row)} (hplain : ∀ part ∈ parts, PlainRows part)
    {counters : WorkerCounters} {tagged : List (ℕ × Row)} (h : shuffleWorker text threshold parts nWorkers w = .ok (counters, tagged)) :
    tagged = (strides parts.length nWorkers parts.length w).flatMap fun p => (parts.getD p []).map (p, ·) := by
  obtain ⟨done, hdone, hrows⟩ := bind_eq_ok.1 h
  have hmap := map_eq_map_of_mapM (g := fun p => (parts.getD p []).map (p, ·)) (p := (·.1)) hdone fun p y hy => by
    obtain ⟨⟨drained, spilled⟩, hbuffer, heq⟩ := bind_eq_ok.1 hy
    have hpart : PlainRows (parts.getD p []) := by
      rcases @getD_mem_or parts p with hp | hp
      · exact hplain _ hp
      · rw [hp]
        exact forall_mem_nil _
    rw [← Except.ok.inj heq, bufferPartition_eq hpart hbuffer]
  rw [flatMap_def, hmap]
  exact (Prod.ext_iff.1 (Except.ok.inj hrows)).2.symm

/-- A shuffle keeps its rows. -/
theorem runShuffle_perm {shuffle : ShuffleSpec} (hplain : PlainRows rows)
    (hparts : ∀ parts, partitionRows rows sig shuffle = .ok parts → parts.flatten.Perm rows) {counters : StageCounters}
    (h : runShuffle text sig shuffle config rows = .ok (out, counters)) : out.Perm rows := by
  obtain ⟨parts, hpartition, h⟩ := bind_eq_ok.1 h
  obtain ⟨workers, hworkers, h⟩ := bind_eq_ok.1 h
  have hflatten := hparts parts hpartition
  set nWorkers := min (max config.workers 1) (max parts.length 1) with hn
  have hpos : 0 < nWorkers := by omega
  have hplain' : ∀ part ∈ parts, PlainRows part := fun part hpart => hplain.of_subset fun row hrow =>
    hflatten.subset (mem_flatten.2 ⟨part, hpart, hrow⟩)
  have htagged := map_eq_map_of_mapM (p := (·.2)) hworkers fun w y hy => (shuffleWorker_rows hplain' hy).symm
  have hrows : (workers.map (·.2)).flatten.map (·.2) = (taken nWorkers parts).flatten := by
    rw [← htagged, taken, ← flatMap_def, ← flatMap_def, flatMap_assoc, map_flatMap]
    refine congrArg (List.flatMap · (List.range nWorkers)) (funext fun w => ?_)
    rw [map_flatMap]
    refine congrArg (List.flatMap · _) (funext fun p => ?_)
    rw [map_map, Function.comp_def, map_id']
  obtain rfl := (Prod.ext_iff.1 (Except.ok.inj h)).1
  calc List.Perm _ ((workers.map (·.2)).flatten.map (·.2)) := (perm_insertionSort _ _).map _
    List.Perm _ parts.flatten := by
      rw [hrows]
      exact (taken_perm hpos parts).flatten
    List.Perm _ rows := hflatten

/-- The rows in one place, or dealt out by a hash. -/
theorem flatten_partitionRows {shuffle : ShuffleSpec} (hshuffle : shuffle = .none ∨ ∃ key partitions, shuffle = .hash key partitions)
    {parts : List (List Row)} (h : partitionRows rows sig shuffle = .ok parts) : parts.flatten.Perm rows := by
  unfold partitionRows at h
  rcases hshuffle with rfl | ⟨key, partitions, rfl⟩
  · simp only at h
    split_ifs at h
    cases h
    simp
  · simp only at h
    split_ifs at h
    obtain ⟨keyIdx, -, hparts⟩ := bind_eq_ok.1 h
    cases hparts
    exact flatten_buckets_perm _ fun row _ => hashPartition_lt row keyIdx (by simp [ShuffleSpec.partitionCount])

theorem rows_of_stage {x : Except DruidError (List Row × StageCounters)} (h : (x.mapError MsqError.engine).map (·.1) = .ok out) :
    ∃ counters, x = .ok (out, counters) := by
  cases x with
  | error e => cases h
  | ok result => exact ⟨result.2, by rw [← Except.ok.inj h]⟩

/-! ## The stages of a plan -/

/-- Without an aggregation: the rows that came in. -/
theorem run_scan (hplain : PlainRows rows) {sig' : RowSignature}
    (h : QueryDefinition.run ⟨[⟨0, [], .scan sig.columns, sig, .none⟩, ⟨1, [0], .shuffle, sig, .none⟩], 1⟩ text config rows = .ok (sig', out)) :
    sig' = sig ∧ out.Perm rows := by
  obtain ⟨-, -, h⟩ := bind_eq_ok.1 h
  obtain ⟨order, horder, h⟩ := bind_eq_ok.1 h
  obtain rfl : [0, 1] = order := Except.ok.inj horder
  obtain ⟨outputs, houtputs, h⟩ := bind_eq_ok.1 h
  obtain ⟨scanned, hscan, houtputs⟩ := bind_eq_ok.1 houtputs
  obtain rfl : rows = scanned := Except.ok.inj hscan
  obtain ⟨shuffled, hshuffle, houtputs⟩ := bind_eq_ok.1 houtputs
  obtain rfl : [some rows, some shuffled] = outputs := Except.ok.inj houtputs
  obtain ⟨rfl, rfl⟩ : sig = sig' ∧ shuffled = out := Prod.ext_iff.1 (Except.ok.inj h)
  have hstage : ((runShuffle text sig .none config (rows ++ [])).mapError MsqError.engine).map (·.1) = .ok shuffled := hshuffle
  rw [append_nil] at hstage
  obtain ⟨counters, hshuffled⟩ := rows_of_stage hstage
  exact ⟨rfl, runShuffle_perm hplain (fun parts => flatten_partitionRows (.inl rfl)) hshuffled⟩

/-- With an aggregation: the groups of the rows, as the engine has them. -/
theorem run_aggregate {dimensions : List Utf8} {aggs : List AggFn} (hplain : PlainRows rows) (haligned : ∀ row ∈ rows, row.length = sig.columns.length)
    {sig' outSig : RowSignature}
    (h : QueryDefinition.run ⟨[⟨0, [], .scan sig.columns, sig, .none⟩, ⟨1, [0], .shuffle, sig, .hash dimensions 4⟩,
      ⟨2, [1], .aggregate dimensions aggs, outSig, .none⟩], 2⟩ text config rows = .ok (sig', out)) :
    sig' = outSig ∧ Resolved sig dimensions aggs ∧ ∃ rows', rows'.Perm rows ∧ out = engineRows sig dimensions aggs rows' := by
  obtain ⟨-, -, h⟩ := bind_eq_ok.1 h
  obtain ⟨order, horder, h⟩ := bind_eq_ok.1 h
  obtain rfl : [0, 1, 2] = order := Except.ok.inj horder
  obtain ⟨outputs, houtputs, h⟩ := bind_eq_ok.1 h
  obtain ⟨scanned, hscan, houtputs⟩ := bind_eq_ok.1 houtputs
  obtain rfl : rows = scanned := Except.ok.inj hscan
  obtain ⟨shuffled, hshuffle, houtputs⟩ := bind_eq_ok.1 houtputs
  obtain ⟨grouped, haggregate, houtputs⟩ := bind_eq_ok.1 houtputs
  obtain rfl : [some rows, some shuffled, some grouped] = outputs := Except.ok.inj houtputs
  obtain ⟨rfl, rfl⟩ : outSig = sig' ∧ grouped = out := Prod.ext_iff.1 (Except.ok.inj h)
  have hstage : ((runShuffle text sig (.hash dimensions 4) config (rows ++ [])).mapError MsqError.engine).map (·.1) = .ok shuffled := hshuffle
  have hstage' : ((runAggregate text sig dimensions aggs config (shuffled ++ [])).mapError MsqError.engine).map (·.1) = .ok grouped := haggregate
  rw [append_nil] at hstage hstage'
  obtain ⟨counters, hshuffled⟩ := rows_of_stage hstage
  obtain ⟨counters', hgrouped⟩ := rows_of_stage hstage'
  have hperm := runShuffle_perm hplain (fun parts => flatten_partitionRows (.inr ⟨_, _, rfl⟩)) hshuffled
  obtain ⟨parts, hparts, hgrouped⟩ := bind_eq_ok.1 hgrouped
  obtain ⟨hne, hcovers⟩ := covers_of_partitionRows hparts
  let table : InputTable := ⟨sig, shuffled, fun row hrow => haligned row (hperm.subset hrow)⟩
  have hplain' : PlainRows table.rows := hplain.of_subset hperm.subset
  have hassigned : aggregatePartitions text table.signature dimensions aggs config (Assignment.mk parts hne hcovers : Assignment table.rows).parts =
      .ok (grouped, counters') := hgrouped
  obtain ⟨hresolved, rows', hrows', rfl⟩ := rows_of_aggregatePartitions hplain' _ hassigned
  exact ⟨rfl, hresolved, rows', hrows'.trans hperm, rfl⟩

/-! ## A whole query -/

section

variable {reader : SqlReader} {mode : FilterMode} {plan : ExecutionPlan} {input table : InputTable} {results : MsqResults}

/-- What the engine puts out for the rows of a table: all of them, or a row for each group. -/
structure EngineOutput (plan : ExecutionPlan) (table : InputTable) (sig : RowSignature) (out : List Row) : Prop where
  scanned : plan.aggregation = none → sig = table.signature ∧ out.Perm table.rows
  grouped : ∀ dimensions specs, plan.aggregation = some (dimensions, specs) →
    ∃ aggs, translateAggregations specs table.signature = .ok aggs ∧ Resolved table.signature dimensions aggs ∧
      sig = ⟨dimensions ++ aggs.map AggFn.column⟩ ∧ (∃ rows, rows.Perm table.rows ∧ out = engineRows table.signature dimensions aggs rows) ∧
      (Faithful table.signature dimensions aggs table.rows →
        out = engineRows table.signature dimensions aggs table.rows ∧ out.Perm (referenceRows table.signature dimensions aggs table.rows))

theorem engineOutput_of_stages {q : QueryDefinition} (hq : plan.toQueryDefinition table.signature = .ok q)
    (hscan : q = ⟨[⟨0, [], .scan table.signature.columns, table.signature, .none⟩, ⟨1, [0], .shuffle, table.signature, .none⟩], 1⟩ →
      sig = table.signature ∧ out.Perm table.rows)
    (hgroup : ∀ dimensions aggs, q = ⟨[⟨0, [], .scan table.signature.columns, table.signature, .none⟩,
        ⟨1, [0], .shuffle, table.signature, .hash dimensions 4⟩,
          ⟨2, [1], .aggregate dimensions aggs, ⟨dimensions ++ aggs.map AggFn.column⟩, .none⟩], 2⟩ →
      sig = ⟨dimensions ++ aggs.map AggFn.column⟩ ∧ Resolved table.signature dimensions aggs ∧
        ∃ rows, rows.Perm table.rows ∧ out = engineRows table.signature dimensions aggs rows) : EngineOutput plan table sig out := by
  unfold ExecutionPlan.toQueryDefinition at hq
  cases haggregation : plan.aggregation with
  | none =>
    rw [haggregation] at hq
    exact ⟨fun _ => hscan (Except.ok.inj hq).symm, fun _ _ hsome => absurd (haggregation.symm.trans hsome) (Option.some_ne_none _).symm⟩
  | some aggregation =>
    obtain ⟨dimensions, specs⟩ := aggregation
    rw [haggregation] at hq
    refine ⟨fun hnone => absurd (haggregation.symm.trans hnone) (Option.some_ne_none _), ?_⟩
    intro dimensions' specs' hsome
    obtain ⟨rfl, rfl⟩ := Prod.ext_iff.1 (Option.some.inj (haggregation.symm.trans hsome))
    simp only at hq
    split at hq
    · cases hq
    · obtain ⟨aggs, haggs, hq⟩ := bind_eq_ok.1 hq
      obtain ⟨hsig, hresolved, rows, hrows, hout⟩ := hgroup dimensions aggs (Except.ok.inj hq).symm
      refine ⟨aggs, haggs, hresolved, hsig, ⟨rows, hrows, hout⟩, fun hfaithful => ?_⟩
      rw [engineRows_perm hresolved hfaithful hrows] at hout
      exact ⟨hout, hout ▸ (engineRows_perm_iff hresolved table.aligned).2 hfaithful⟩

theorem engineOutput_of_run {q : QueryDefinition} (hplain : PlainRows table.rows) (hq : plan.toQueryDefinition table.signature = .ok q)
    (h : q.run text config table.rows = .ok (sig, out)) : EngineOutput plan table sig out := by
  refine engineOutput_of_stages hq (fun hq => ?_) fun dimensions aggs hq => ?_
  · subst hq
    exact run_scan hplain h
  · subst hq
    exact run_aggregate hplain table.aligned h

/-- The groups of the rows do not depend on the order of the rows. -/
def ExecutionPlan.Faithful (plan : ExecutionPlan) (table : InputTable) : Prop := ∀ dimensions specs aggs,
  plan.aggregation = some (dimensions, specs) → translateAggregations specs table.signature = .ok aggs →
    Msq.Faithful table.signature dimensions aggs table.rows

theorem EngineOutput.agree {sig' : RowSignature} {out' : List Row} (h : EngineOutput plan table sig out) (h' : EngineOutput plan table sig' out')
    (hfaithful : plan.Faithful table) : sig = sig' ∧ out.Perm out' := by
  cases haggregation : plan.aggregation with
  | none =>
    obtain ⟨rfl, hperm⟩ := h.scanned haggregation
    obtain ⟨rfl, hperm'⟩ := h'.scanned haggregation
    exact ⟨rfl, hperm.trans hperm'.symm⟩
  | some aggregation =>
    obtain ⟨aggs, haggs, -, rfl, -, hout⟩ := h.grouped _ _ haggregation
    obtain ⟨aggs', haggs', -, rfl, -, hout'⟩ := h'.grouped _ _ haggregation
    obtain rfl := Except.ok.inj (haggs.symm.trans haggs')
    have hgroups := hfaithful _ _ _ haggregation haggs
    rw [(hout hgroups).1, (hout' hgroups).1]
    exact ⟨rfl, List.Perm.refl _⟩

/-! ### The order of plain cells -/

def longPart : Value → ℤ
  | .long v => v.toInt
  | _ => 0

def textPart : Value → Bytes
  | .str s => s.bytes
  | _ => []

def plainCmp (a b : Value) : Ordering :=
  ((compare a.rank b.rank).then (compare (longPart a) (longPart b))).then ((textPart a).compareLex compareBytes (textPart b))

instance transCmp_plainCmp : Std.TransCmp plainCmp :=
  have _htext : Std.TransCmp fun a b : Value => (textPart a).compareLex compareBytes (textPart b) :=
    { eq_swap := Std.OrientedCmp.eq_swap, isLE_trans := Std.TransCmp.isLE_trans }
  inferInstanceAs (Std.TransCmp (compareLex (compareLex (compareOn Value.rank) (compareOn longPart))
    fun a b => (textPart a).compareLex compareBytes (textPart b)))

theorem totalCmp_eq_plainCmp {a b : Value} (ha : a.Plain) (hb : b.Plain) : a.totalCmp b = plainCmp a b := by
  cases a with
  | double x => exact absurd rfl (ha x)
  | long v =>
    cases b with
    | double x => exact absurd rfl (hb x)
    | long w => exact Ordering.then_eq.symm
    | _ => rfl
  | _ =>
    cases b with
    | double x => exact absurd rfl (hb x)
    | _ => rfl

theorem plain_getD {row : Row} (h : ∀ cell ∈ row, Value.Plain cell) (i : ℕ) : (row.getD i .null).Plain := by
  rw [getD_eq_getElem?_getD]
  cases hcell : row[i]? with
  | none => exact fun x => Value.noConfusion
  | some cell => exact h cell (mem_of_getElem? hcell)

theorem plain_engineRows {dimensions : List Utf8} {aggs : List AggFn} (hplain : PlainRows rows) (hresolved : Resolved sig dimensions aggs)
    (haligned : ∀ row ∈ rows, row.length = sig.columns.length) : PlainRows (engineRows sig dimensions aggs rows) := by
  intro out hout cell hcell
  obtain ⟨row, group, hgroup, rfl⟩ := (mem_engineRows hresolved haligned).1 hout
  have hrow : row ∈ rows := (mem_filter.1 (hgroup ▸ mem_cons_self .. : row ∈ rows.filter _)).1
  rcases mem_append.1 hcell with hcell | hcell
  · obtain ⟨name, -, rfl⟩ := mem_map.1 hcell
    unfold cellOf
    cases sig.indexOf name with
    | none => exact fun x => Value.noConfusion
    | some i => exact plain_getD (hplain row hrow) i
  · obtain ⟨agg, -, rfl⟩ := mem_map.1 hcell
    intro x
    cases ((row :: group).map fun row => (inputOf sig agg row).getD 0).foldl AggState.accumulate (.init agg) with
    | min m => cases m <;> exact Value.noConfusion
    | max m => cases m <;> exact Value.noConfusion
    | _ => exact Value.noConfusion

theorem EngineOutput.plain (h : EngineOutput plan table sig out) (hplain : PlainRows table.rows) : PlainRows out := by
  cases haggregation : plan.aggregation with
  | none => exact hplain.of_subset (h.scanned haggregation).2.subset
  | some aggregation =>
    obtain ⟨aggs, -, hresolved, -, ⟨rows, hrows, rfl⟩, -⟩ := h.grouped aggregation.1 aggregation.2 haggregation
    exact plain_engineRows (hplain.of_subset hrows.subset) hresolved fun row hrow => table.aligned row (hrows.subset hrow)

theorem applyWhereFilter_subset {select : SelectQuery} (h : applyWhereFilter mode input select = .ok table) : table.rows ⊆ input.rows := by
  unfold applyWhereFilter at h
  cases hfilter : select.filter with
  | none =>
    rw [hfilter] at h
    obtain rfl := Except.ok.inj h
    exact List.Subset.refl _
  | some expr =>
    rw [hfilter] at h
    cases hspec : convertFilter expr with
    | error e =>
      simp only [hspec] at h
      cases h
    | ok spec =>
      simp only [hspec] at h
      obtain rfl := Except.ok.inj h
      exact filter_subset_self _

/-- The rows that the engine puts out, in the order asked for, up to the limit. -/
def Answers (reader : SqlReader) (select : SelectQuery) (sig : RowSignature) (out : List Row) (results : MsqResults) : Prop :=
  ∃ (projectionPlan : Option (List ProjectionItem)) (keys : List (ℕ × Bool)) (ordered : List Row) (final : RowSignature × List Row),
    reader.resolveProjectionPlan select.projections [] = .ok projectionPlan ∧
    select.orderBy.mapM (orderKey sig projectionPlan) = .ok keys ∧
    ordered.Perm out ∧ ordered.Pairwise (fun a b => compareBy Value.totalCmp cellAt keys a b ≠ .gt) ∧
    applyProjection sig (ordered.take (select.limit.getD ordered.length)) projectionPlan = .ok final ∧
    results = ⟨final.1.columns, final.2.map (rowToJson final.1)⟩

theorem answers_of_applyClauses {select : SelectQuery} (hplain : PlainRows out) {final : RowSignature × List Row}
    (h : applyClauses reader select sig out = .ok final) : Answers reader select sig out ⟨final.1.columns, final.2.map (rowToJson final.1)⟩ := by
  obtain ⟨projectionPlan, hprojections, h⟩ := bind_eq_ok.1 h
  obtain ⟨sorted, horder, h⟩ := bind_eq_ok.1 h
  obtain ⟨keys, hkeys, hsorted⟩ := bind_eq_ok.1 horder
  obtain rfl := Except.ok.inj hsorted
  refine ⟨projectionPlan, keys, out.insertionSort fun a b => compareBy Value.totalCmp cellAt keys a b ≠ .gt, final, hprojections, hkeys,
    perm_insertionSort _ _, ?_, ?_, rfl⟩
  · exact pairwise_sort_compareBy (P := Value.Plain) (fun _ _ => totalCmp_eq_plainCmp) (fun row hrow i => plain_getD (hplain row hrow) i) keys
  · cases hlimit : select.limit with
    | none =>
      rw [Option.getD_none, take_length]
      simpa only [hlimit] using h
    | some limit =>
      rw [Option.getD_some]
      simpa only [hlimit] using h

/-- A query answers with the rows that WHERE keeps, or the groups of them, in order;
a statement that is no query has no clause to apply. -/
theorem executeMsqWithInput_spec (hplain : PlainRows input.rows) (h : executeMsqWithInput reader mode text plan input config = .ok results) :
    (∀ select, reader.parseDruidSql plan.sql = some (.select select) →
      ∃ table sig out, applyWhereFilter mode input select = .ok table ∧ EngineOutput plan table sig out ∧ Answers reader select sig out results) ∧
    ((∀ select, reader.parseDruidSql plan.sql ≠ some (.select select)) →
      plan.hasUnappliedClauses = false ∧ ∃ sig out, EngineOutput plan input sig out ∧ results = ⟨sig.columns, out.map (rowToJson sig)⟩) := by
  obtain ⟨-, -, h⟩ := bind_eq_ok.1 h
  constructor
  · intro select hselect
    simp only [hselect] at h
    obtain ⟨table, htable, h⟩ := bind_eq_ok.1 h
    obtain ⟨q, hq, h⟩ := bind_eq_ok.1 h
    obtain ⟨⟨sig, out⟩, hrun, h⟩ := bind_eq_ok.1 h
    obtain ⟨final, hfinal, h⟩ := bind_eq_ok.1 h
    obtain rfl := Except.ok.inj h
    have hplain' := hplain.of_subset (applyWhereFilter_subset htable)
    have hout := engineOutput_of_run hplain' hq hrun
    exact ⟨table, sig, out, htable, hout, answers_of_applyClauses (hout.plain hplain') hfinal⟩
  · intro hselect
    rcases hparse : reader.parseDruidSql plan.sql with _ | ⟨select | _⟩
    case some.select => exact absurd hparse (hselect select)
    all_goals
      simp only [hparse] at h
      split_ifs at h with hclauses
      obtain ⟨table, htable, h⟩ := bind_eq_ok.1 h
      obtain rfl := Except.ok.inj htable
      obtain ⟨q, hq, h⟩ := bind_eq_ok.1 h
      obtain ⟨⟨sig, out⟩, hrun, h⟩ := bind_eq_ok.1 h
      exact ⟨by simpa using hclauses, sig, out, engineOutput_of_run hplain hq hrun, (Except.ok.inj h).symm⟩

/-- A reader that always reads the same statement. -/
def fixedReader (statement : DruidSqlStatement) : SqlReader where
  parseDruidSql _ := some statement
  toLowercase bs := if h : ∀ b ∈ bs.map asciiLower, b < 0x80 then .ofAscii (bs.map asciiLower) h else columnA
  toLowercase_ascii bs h := by
    rw [dif_pos]
    · rfl
    · intro b hb
      obtain ⟨c, hc, rfl⟩ := List.mem_map.1 hb
      have hlt := h c hc
      unfold asciiLower
      split_ifs with hupper
      · simp only [Bool.and_eq_true, decide_eq_true_eq, UInt8.le_iff_toNat_le] at hupper
        rw [UInt8.lt_iff_toNat_lt, UInt8.toNat_add]
        simp at hupper ⊢
        omega
      · exact hlt

def fewRows : InputTable := twoRows (.long 1) (.long 7) (.long 2) .null

def scanPlan : ExecutionPlan := ⟨[⟨0, .scan columnA.bytes none, []⟩], 0, []⟩

/-- The row that is last by its second column. -/
def lastByB : SelectQuery := ⟨[.wildcard], .table columnA none, none, [], none, none, [⟨.column columnB, false⟩], some 1, none⟩

theorem plain_fewRows : PlainRows fewRows.rows := by
  intro row hrow cell hcell x hx
  subst hx
  simp [fewRows, twoRows] at hrow
  rcases hrow with rfl | rfl <;> simp at hcell

theorem executeMsqWithInput_spec_last :
    ∃ results, executeMsqWithInput (fixedReader (.select lastByB)) ⟨false, lineRegex⟩ noText scanPlan
        fewRows ⟨2, 0⟩ = .ok results ∧
      ∃ table sig out, applyWhereFilter ⟨false, lineRegex⟩ fewRows lastByB = .ok table ∧
        EngineOutput scanPlan table sig out ∧ Answers (fixedReader (.select lastByB)) lastByB sig out results := by
  obtain ⟨results, h⟩ : ∃ results, executeMsqWithInput (fixedReader (.select lastByB)) ⟨false, lineRegex⟩ noText
      scanPlan fewRows ⟨2, 0⟩ = .ok results := ⟨_, rfl⟩
  exact ⟨results, h, (executeMsqWithInput_spec plain_fewRows h).1 lastByB rfl⟩

end

end FerroDruid.Msq
