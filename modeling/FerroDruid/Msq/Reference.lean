import FerroDruid.Msq.Spill
/-!
# Workers

The workers of an aggregate stage take all partitions between them, each once; the
rows that come out are those of all partitions aggregated at once.
-/

namespace FerroDruid.Msq

open Lib List

/-! ## Strides -/

theorem mem_strides {len step fuel p q : ℕ} (hstep : 0 < step) (hfuel : len ≤ p + fuel) :
    q ∈ strides len step fuel p ↔ q < len ∧ ∃ k, q = p + k * step := by
  induction fuel generalizing p with
  | zero =>
    simp only [strides, not_mem_nil, false_iff, not_and, not_exists]
    intro hq k
    omega
  | succ fuel ih =>
    unfold strides
    split_ifs with hp
    · rw [mem_cons, ih (by omega)]
      constructor
      · rintro (rfl | ⟨hq, k, rfl⟩)
        · exact ⟨hp, 0, by omega⟩
        · exact ⟨hq, k + 1, by rw [Nat.succ_mul]; omega⟩
      · rintro ⟨hq, k, rfl⟩
        cases k with
        | zero => exact .inl (by omega)
        | succ k => exact .inr ⟨hq, k, by rw [Nat.succ_mul]; omega⟩
    · simp only [not_mem_nil, false_iff, not_and, not_exists]
      intro hq k
      omega

theorem nodup_strides {len step fuel p : ℕ} (hstep : 0 < step) (hfuel : len ≤ p + fuel) : (strides len step fuel p).Nodup := by
  induction fuel generalizing p with
  | zero => exact nodup_nil
  | succ fuel ih =>
    unfold strides
    split_ifs
    · refine nodup_cons.2 ⟨fun hmem => ?_, ih (by omega)⟩
      obtain ⟨-, k, hk⟩ := (mem_strides hstep (by omega)).1 hmem
      omega
    · exact nodup_nil

/-- Every partition goes to one worker. -/
theorem strides_perm {len n : ℕ} (hn : 0 < n) : ((List.range n).flatMap (strides len n len)).Perm (List.range len) := by
  have hmem : ∀ {w p}, p ∈ strides len n len w ↔ p < len ∧ ∃ k, p = w + k * n := mem_strides hn (Nat.le_add_left ..)
  refine (perm_ext_iff_of_nodup ?_ nodup_range).2 fun p => ?_
  · refine nodup_flatMap.2 ⟨fun w _ => nodup_strides hn (Nat.le_add_left ..), ?_⟩
    refine List.Pairwise.imp_of_mem (fun {w w'} hw hw' hlt => ?_) pairwise_lt_range
    refine disjoint_left.2 fun p hp hp' => ?_
    obtain ⟨-, k, rfl⟩ := hmem.1 hp
    obtain ⟨-, k', heq⟩ := hmem.1 hp'
    have hw := mem_range.1 hw
    have hw' := mem_range.1 hw'
    -- one remainder is one worker
    have hmod := congrArg (· % n) heq
    simp only [Nat.add_mul_mod_self_right, Nat.mod_eq_of_lt hw, Nat.mod_eq_of_lt hw'] at hmod
    omega
  · rw [mem_flatMap, mem_range]
    constructor
    · rintro ⟨w, -, hp⟩
      exact (hmem.1 hp).1
    · intro hp
      exact ⟨p % n, mem_range.2 (Nat.mod_lt _ hn), hmem.2 ⟨hp, p / n, by rw [Nat.mul_comm, Nat.mod_add_div]⟩⟩

/-! ## Aggregate stages -/

section

variable {text : JsonText} {sig : RowSignature} {groupBy : List Utf8} {aggs : List AggFn} {groupIdx : List ℕ} {aggFieldIdx : List (Option ℕ)}
  {parts : List (List Row)}

/-- The partitions in the order in which the workers' rows are merged. -/
def taken (nWorkers : ℕ) (parts : List (List Row)) : List (List Row) :=
  ((List.range nWorkers).flatMap (strides parts.length nWorkers parts.length)).map (parts.getD · [])

theorem taken_perm {nWorkers : ℕ} (h : 0 < nWorkers) (parts : List (List Row)) : (taken nWorkers parts).Perm parts := by
  have hall : (List.range parts.length).map (parts.getD · []) = parts :=
    ext_getElem (by simp) fun i hi hi' => by simp [getElem?_eq_getElem hi']
  have hperm := (@strides_perm parts.length _ h).map (parts.getD · [])
  rwa [hall] at hperm

theorem getD_mem_or (p : ℕ) : parts.getD p [] ∈ parts ∨ parts.getD p [] = [] := by
  rw [getD_eq_getElem?_getD]
  cases hp : parts[p]? with
  | none => exact .inr rfl
  | some part => exact .inl (mem_of_getElem? hp)

theorem aggregateWorker_ok (hgroup : resolveGroup sig groupBy = .ok groupIdx) (hfields : resolveFields sig aggs = .ok aggFieldIdx) {threshold : ℕ}
    (hplain : ∀ part ∈ parts, PlainRows part) (hread : ∀ part ∈ parts, Readable text threshold part) (nWorkers w : ℕ) :
    ∃ counters, aggregateWorker text sig groupBy aggs threshold parts nWorkers w =
      .ok (counters, (strides parts.length nWorkers parts.length w).flatMap fun p => groupRows groupIdx aggs aggFieldIdx (parts.getD p [])) := by
  have hpart : ∀ p, ∃ spilled, bufferPartition text threshold (parts.getD p []) = .ok (parts.getD p [], spilled) := by
    intro p
    rcases @getD_mem_or parts p with hp | hp
    · exact bufferPartition_of_readable (hplain _ hp) (hread _ hp)
    · rw [hp]
      exact ⟨_, rfl⟩
  choose spilled hspilled using hpart
  unfold aggregateWorker
  rw [mapM_of_ok (g := fun p => (groupRows groupIdx aggs aggFieldIdx (parts.getD p []), (parts.getD p []).length, spilled p)) fun p _ => by
    rw [aggregatePart, hspilled, ok_bind]
    simp only [aggregateRows_eq hgroup hfields, ok_bind]]
  refine ⟨_, congrArg (fun partials => Except.ok (_, partials)) ?_⟩
  rw [map_map, flatMap_def]
  rfl

/-- A stage whose partitions can be read merges the groups of all of them. -/
theorem aggregatePartitions_ok (hgroup : resolveGroup sig groupBy = .ok groupIdx) (hfields : resolveFields sig aggs = .ok aggFieldIdx)
    (hkeys : ∀ part ∈ parts, ∀ row ∈ part, HasKey groupIdx row) {config : EngineConfig} (hplain : ∀ part ∈ parts, PlainRows part)
    (hread : ∀ part ∈ parts, Readable text config.spillThresholdBytes part) :
    ∃ rows counters, rows.Perm parts.flatten ∧
      aggregatePartitions text sig groupBy aggs config parts = .ok (groupRows groupIdx aggs aggFieldIdx rows, counters) := by
  set nWorkers := min (max config.workers 1) (max parts.length 1) with hn
  have hpos : 0 < nWorkers := by omega
  choose counters hworker using @aggregateWorker_ok text _ _ _ _ _ _ hgroup hfields _ hplain hread nWorkers
  have hgroupLength : groupBy.length = groupIdx.length := (mapM_eq_ok.1 hgroup).length_eq
  have hlength : aggFieldIdx.length = aggs.length := (mapM_eq_ok.1 hfields).length_eq.symm
  have hpartials : (((List.range nWorkers).map fun w => (counters w, (strides parts.length nWorkers parts.length w).flatMap fun p =>
      groupRows groupIdx aggs aggFieldIdx (parts.getD p []))).map (·.2)).flatten =
        (taken nWorkers parts).flatMap (groupRows groupIdx aggs aggFieldIdx) := by
    rw [map_map, taken, flatMap_map, flatMap_assoc, ← flatMap_def]
    rfl
  have hmerged := mergePartials_groupRows hlength (fun part hpart => hkeys part ((taken_perm hpos parts).subset hpart)) hpartials
  refine ⟨(taken nWorkers parts).flatten, ?_⟩
  unfold aggregatePartitions
  simp only [← hn]
  rw [mapM_of_ok fun w _ => hworker w, ok_bind, hgroupLength, hmerged, ok_bind]
  exact ⟨_, (taken_perm hpos parts).flatten, rfl⟩

/-- A partition that fails fails the stage. -/
theorem aggregatePartitions_error {config : EngineConfig} {part : List Row} (hpart : part ∈ parts)
    (hfails : ∃ e, aggregatePart text sig groupBy aggs config.spillThresholdBytes part = .error e) :
    ∃ e, aggregatePartitions text sig groupBy aggs config parts = .error e := by
  set nWorkers := min (max config.workers 1) (max parts.length 1) with hn
  have hpos : 0 < nWorkers := by omega
  obtain ⟨p, hp, rfl⟩ := mem_iff_getElem.1 hpart
  obtain ⟨w, hw, hstride⟩ := mem_flatMap.1 ((strides_perm hpos).symm.subset (mem_range.2 hp))
  have hget : parts.getD p [] = parts[p] := by simp [getElem?_eq_getElem hp]
  obtain ⟨e, he⟩ := mapM_of_error (f := fun p => aggregatePart text sig groupBy aggs config.spillThresholdBytes (parts.getD p [])) hstride
    (by simpa only [hget] using hfails)
  obtain ⟨e', he'⟩ := mapM_of_error (f := aggregateWorker text sig groupBy aggs config.spillThresholdBytes parts nWorkers) hw
    ⟨e, by rw [aggregateWorker, he]; rfl⟩
  refine ⟨e', ?_⟩
  unfold aggregatePartitions
  simp only [← hn]
  rw [he']
  rfl

end

/-! ## What a grouped query means

Rows grouped by the values of their key columns, each group aggregated without its
nulls. The engine groups by texts and takes a null for zero; it gives that meaning
exactly if no two keys have one text and no null is a minimum or maximum. -/

/-! ## The reference -/

section

variable (sig : RowSignature) (groupBy : List Utf8) (aggs : List AggFn)

def cellOf (name : Utf8) (row : Row) : Value :=
  match sig.indexOf name with
  | some i => row.getD i .null
  | none => .null

/-- The typed key of a row. -/
def keyOf (row : Row) : Row := groupBy.map (cellOf sig · row)

/-- What a row gives an aggregate; a count needs no column. -/
def inputOf (agg : AggFn) (row : Row) : Option Int64 :=
  match agg.field? with
  | none => some 0
  | some field =>
    match cellOf sig field row with
    | .null => none
    | v => some v.asLong

/-- An aggregate over the inputs that are there. -/
def aggregateGroup (group : List Row) (agg : AggFn) : Value :=
  ((group.filterMap (inputOf sig agg)).foldl AggState.accumulate (.init agg)).finalize

def referenceRow (rows : List Row) (key : Row) : Row := key ++ aggs.map (aggregateGroup sig (rows.filter (keyOf sig groupBy · = key)))

def referenceRows (rows : List Row) : List Row := (firsts (rows.map (keyOf sig groupBy))).map (referenceRow sig groupBy aggs rows)

/-- All columns are there. -/
def Resolved : Prop := (∀ g ∈ groupBy, g ∈ sig.columns) ∧ ∀ agg ∈ aggs, ∀ field ∈ agg.field?, field ∈ sig.columns

instance : Decidable (Resolved sig groupBy aggs) := inferInstanceAs (Decidable (_ ∧ _))

/-- There is no answer about columns that are not there. -/
def reference (rows : List Row) : Option (List Row) := if Resolved sig groupBy aggs then some (referenceRows sig groupBy aggs rows) else none

/-- Keys are told apart by their texts, and where a minimum (maximum) has a null
among its inputs it has one that is not over (not under) zero too. -/
structure Faithful (rows : List Row) : Prop where
  keys : ∀ row ∈ rows, ∀ row' ∈ rows, joined (keyOf sig groupBy row) = joined (keyOf sig groupBy row') → keyOf sig groupBy row = keyOf sig groupBy row'
  minima : ∀ field, .longMin field ∈ aggs → ∀ row ∈ rows, cellOf sig field row = .null →
    ∃ row' ∈ rows, keyOf sig groupBy row' = keyOf sig groupBy row ∧ cellOf sig field row' ≠ .null ∧ (cellOf sig field row').asLong ≤ 0
  maxima : ∀ field, .longMax field ∈ aggs → ∀ row ∈ rows, cellOf sig field row = .null →
    ∃ row' ∈ rows, keyOf sig groupBy row' = keyOf sig groupBy row ∧ cellOf sig field row' ≠ .null ∧ 0 ≤ (cellOf sig field row').asLong

end

/-- The rows are those expected, in any order; where none are, the run fails. -/
def Agrees (run : Except DruidError (List Row × StageCounters)) (expected : Option (List Row)) : Prop :=
  match run, expected with
  | .ok (rows, _), some expected => rows.Perm expected
  | .error _, none => True
  | _, _ => False

/-! ## Nulls -/

theorem minLong_zero {v : Int64} : minLong 0 v = v ↔ v ≤ 0 := by
  unfold minLong
  simp only [Int64.lt_iff_toInt_lt, Int64.le_iff_toInt_le, ← Int64.toInt_inj]
  split_ifs <;> omega

theorem maxLong_zero {v : Int64} : maxLong 0 v = v ↔ 0 ≤ v := by
  unfold maxLong
  simp only [Int64.lt_iff_toInt_lt, Int64.le_iff_toInt_le, ← Int64.toInt_inj]
  split_ifs <;> omega

theorem minLong_le_zero (a b : Int64) : minLong a b ≤ 0 ↔ a ≤ 0 ∨ b ≤ 0 := by
  unfold minLong
  simp only [Int64.lt_iff_toInt_lt, Int64.le_iff_toInt_le]
  split_ifs <;> omega

theorem zero_le_maxLong (a b : Int64) : 0 ≤ maxLong a b ↔ 0 ≤ a ∨ 0 ≤ b := by
  unfold maxLong
  simp only [Int64.lt_iff_toInt_lt, Int64.le_iff_toInt_le]
  split_ifs <;> omega

/-- When nulls taken for zero do not show. -/
def NullsHarmless (agg : AggFn) (inputs : List (Option Int64)) : Prop :=
  match agg with
  | .count => none ∉ inputs
  | .longSum _ => True
  | .longMin _ => none ∈ inputs → ∃ v, some v ∈ inputs ∧ v ≤ 0
  | .longMax _ => none ∈ inputs → ∃ v, some v ∈ inputs ∧ 0 ≤ v

theorem elim_null_inj {m m' : Option Int64} : m.elim Value.null .long = m'.elim Value.null .long ↔ m = m' := by
  cases m <;> cases m' <;> simp

/-- An aggregate is the one without the nulls exactly if they are harmless; a count
has none. -/
theorem finalize_getD_iff (agg : AggFn) (inputs : List (Option Int64)) (hcount : agg = .count → none ∉ inputs) :
    (((inputs.map (·.getD 0)).foldl AggState.accumulate (.init agg)).finalize =
      ((inputs.filterMap id).foldl AggState.accumulate (.init agg)).finalize) ↔ NullsHarmless agg inputs := by
  have hmem : ∀ v, v ∈ inputs.filterMap id ↔ some v ∈ inputs := by simp
  cases agg with
  | count =>
    clear hmem
    refine iff_of_true ?_ (hcount rfl)
    have hsome : inputs.map (·.getD 0) = inputs.filterMap id := by
      have hnone := hcount rfl
      clear hcount
      induction inputs with
      | nil => rfl
      | cons input inputs ih =>
        cases input with
        | none => exact absurd (mem_cons_self ..) hnone
        | some v => exact congrArg (v :: ·) (ih fun h => hnone (mem_cons_of_mem _ h))
    rw [hsome]
  | longSum field =>
    refine iff_of_true ?_ trivial
    have hsum : ∀ s : Int64, (inputs.map (·.getD 0)).foldl (· + ·) s = (inputs.filterMap id).foldl (· + ·) s := by
      clear hcount hmem
      induction inputs with
      | nil => exact fun _ => rfl
      | cons input inputs ih =>
        intro s
        cases input with
        | none =>
          have hs : s + (none : Option Int64).getD 0 = s := Int64.add_zero s
          rw [map_cons, foldl_cons, hs]
          exact ih s
        | some v => exact ih (s + v)
    rw [AggState.init, AggState.foldl_sum, AggState.foldl_sum, hsum]
  | longMin field =>
    have hidem : minLong 0 0 = 0 := by decide
    have hiff := @merge_total_eq_iff _ minLong 0 _ (fun a b => by simp only [minLong_zero, minLong_le_zero]) (inputs.filterMap id)
    simp only [minLong_zero, hmem] at hiff
    rw [AggState.init, AggState.foldl_min, AggState.foldl_min, Option.merge_none_left, Option.merge_none_left, total_map_getD hidem]
    simp only [AggState.finalize, elim_null_inj, NullsHarmless]
    split_ifs with hnone
    · simp only [hnone, hiff, true_implies]
    · simp only [hnone, false_implies]
  | longMax field =>
    have hidem : maxLong 0 0 = 0 := by decide
    have hiff := @merge_total_eq_iff _ maxLong 0 _ (fun a b => by simp only [maxLong_zero, zero_le_maxLong]) (inputs.filterMap id)
    simp only [maxLong_zero, hmem] at hiff
    rw [AggState.init, AggState.foldl_max, AggState.foldl_max, Option.merge_none_left, Option.merge_none_left, total_map_getD hidem]
    simp only [AggState.finalize, elim_null_inj, NullsHarmless]
    split_ifs with hnone
    · simp only [hnone, hiff, true_implies]
    · simp only [hnone, false_implies]

/-! ## Columns -/

variable {sig : RowSignature} {groupBy : List Utf8} {aggs : List AggFn}

def columnIdx (sig : RowSignature) (name : Utf8) : ℕ := (sig.indexOf name).getD 0

def fieldIdx (sig : RowSignature) (agg : AggFn) : Option ℕ := agg.field?.map (columnIdx sig)

variable {name : Utf8}

theorem indexOf_of_mem (h : name ∈ sig.columns) : sig.indexOf name = some (columnIdx sig name) ∧ columnIdx sig name < sig.columns.length := by
  have hsome : (sig.indexOf name).isSome = true := by
    rw [RowSignature.indexOf, findIdx?_isSome]
    exact any_eq_true.2 ⟨name, h, decide_eq_true rfl⟩
  obtain ⟨i, hi⟩ := Option.isSome_iff_exists.1 hsome
  rw [columnIdx, hi]
  exact ⟨rfl, (findIdx?_eq_some_iff_findIdx_eq.1 hi).1⟩

theorem resolveColumn_of_mem (h : name ∈ sig.columns) (missing : Utf8 → DruidError) :
    resolveColumn sig missing name = .ok (columnIdx sig name) := by
  rw [resolveColumn, (indexOf_of_mem h).1]

theorem resolveColumn_of_not_mem (h : name ∉ sig.columns) (missing : Utf8 → DruidError) :
    resolveColumn sig missing name = .error (missing name) := by
  have hnone : sig.indexOf name = none := findIdx?_eq_none_iff.2 fun _ hcolumn => decide_eq_false fun heq => h (heq ▸ hcolumn)
  rw [resolveColumn, hnone]

theorem resolveGroup_of_resolved (h : Resolved sig groupBy aggs) : resolveGroup sig groupBy = .ok (groupBy.map (columnIdx sig)) :=
  mapM_of_ok fun g hg => resolveColumn_of_mem (h.1 g hg) _

theorem resolveKey_of_resolved (h : Resolved sig groupBy aggs) : resolveKey sig groupBy = .ok (groupBy.map (columnIdx sig)) :=
  mapM_of_ok fun g hg => resolveColumn_of_mem (h.1 g hg) _

theorem resolveFields_of_resolved (h : Resolved sig groupBy aggs) : resolveFields sig aggs = .ok (aggs.map (fieldIdx sig)) := by
  refine mapM_of_ok fun agg hagg => ?_
  have hfield := h.2 agg hagg
  unfold resolveField fieldIdx
  cases hf : agg.field? with
  | none => rfl
  | some field =>
    simp only [resolveColumn_of_mem (hfield field hf)]
    rfl

/-- A missing column fails the aggregation of any rows. -/
theorem aggregateRows_of_not_resolved (h : ¬ Resolved sig groupBy aggs) (rows : List Row) : ∃ e, aggregateRows rows sig groupBy aggs = .error e := by
  rw [aggregateRows]
  by_cases hgroup : ∃ g ∈ groupBy, g ∉ sig.columns
  · obtain ⟨g, hg, hmissing⟩ := hgroup
    obtain ⟨e, he⟩ := mapM_of_error (f := resolveColumn sig .groupColumnMissing) hg ⟨_, resolveColumn_of_not_mem hmissing _⟩
    rw [resolveGroup, he]
    exact ⟨e, rfl⟩
  · have hfields : ∃ agg ∈ aggs, ∃ field ∈ agg.field?, field ∉ sig.columns := by
      by_contra hall
      refine h ⟨fun g hg => ?_, fun agg hagg field hfield => ?_⟩
      · by_contra hmissing
        exact hgroup ⟨g, hg, hmissing⟩
      · by_contra hmissing
        exact hall ⟨agg, hagg, field, hfield, hmissing⟩
    obtain ⟨agg, hagg, field, hfield, hmissing⟩ := hfields
    obtain ⟨e, he⟩ := mapM_of_error (f := resolveField sig) hagg ⟨.aggregationFieldMissing field, by
      rw [resolveField, Option.mem_def.1 hfield]
      simp only [resolveColumn_of_not_mem hmissing]
      rfl⟩
    cases resolveGroup sig groupBy with
    | error e' => exact ⟨e', rfl⟩
    | ok groupIdx =>
      rw [ok_bind, resolveFields, he]
      exact ⟨e, rfl⟩

section

variable (h : Resolved sig groupBy aggs)

include h

theorem keyTuple_eq (row : Row) : keyTuple (groupBy.map (columnIdx sig)) row = keyOf sig groupBy row := by
  rw [keyTuple, keyOf, map_map]
  refine map_congr_left fun g hg => ?_
  rw [cellOf, (indexOf_of_mem (h.1 g hg)).1]
  rfl

theorem hasKey_of_resolved {row : Row} (hrow : row.length = sig.columns.length) :
    HasKey (groupBy.map (columnIdx sig)) row := by
  intro i hi
  obtain ⟨g, hg, rfl⟩ := mem_map.1 hi
  rw [hrow]
  exact (indexOf_of_mem (h.1 g hg)).2

theorem aggInput_eq {agg : AggFn} (hagg : agg ∈ aggs) (row : Row) :
    aggInput row (fieldIdx sig agg) = (inputOf sig agg row).getD 0 := by
  unfold fieldIdx inputOf
  cases hf : agg.field? with
  | none => rfl
  | some field =>
    simp only [Option.map_some, aggInput, cellOf, (indexOf_of_mem (h.2 agg hagg field hf)).1, getD_eq_getElem?_getD]
    cases row[columnIdx sig field]? with
    | none => rfl
    | some cell => cases cell <;> rfl

theorem states_finalize (rows : List Row) :
    (states aggs (aggs.map (fieldIdx sig)) rows).map AggState.finalize =
      aggs.map fun agg => ((rows.map fun row => (inputOf sig agg row).getD 0).foldl AggState.accumulate (.init agg)).finalize := by
  rw [states, zipWith_map_right, zipWith_self, map_map]
  refine map_congr_left fun agg hagg => ?_
  simp only [Function.comp_apply, aggInput_eq h hagg]

end

end FerroDruid.Msq
