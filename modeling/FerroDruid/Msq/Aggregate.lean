import FerroDruid.Msq.Reference
/-!
# When the execution shape does not show

The result of an aggregate stage against the reference, for every number of
workers, spill threshold and assignment of rows to partitions.
-/

namespace FerroDruid.Msq

open Lib List

variable {sig : RowSignature} {groupBy : List Utf8} {aggs : List AggFn} {rows : List Row}

/-! ## Groups against the reference -/

section

variable (hresolved : Resolved sig groupBy aggs) (haligned : ∀ row ∈ rows, row.length = sig.columns.length)

/-- The rows that the engine puts out. -/
def engineRows (sig : RowSignature) (groupBy : List Utf8) (aggs : List AggFn) (rows : List Row) : List Row :=
  groupRows (groupBy.map (columnIdx sig)) aggs (aggs.map (fieldIdx sig)) rows

/-- The text of a row's key. -/
def keyText (sig : RowSignature) (groupBy : List Utf8) (row : Row) : Bytes := joined (keyOf sig groupBy row)

/-- A group as the engine aggregates it: nulls are zeros. -/
def engineRow (sig : RowSignature) (groupBy : List Utf8) (aggs : List AggFn) (row : Row) (group : List Row) : Row :=
  keyOf sig groupBy row ++ aggs.map fun agg =>
    ((group.map fun row => (inputOf sig agg row).getD 0).foldl AggState.accumulate (.init agg)).finalize

include hresolved haligned

variable {row : Row}

theorem filter_keyText (hrow : row ∈ rows) :
    rows.filter (groupKeyString · (groupBy.map (columnIdx sig)) = groupKeyString row (groupBy.map (columnIdx sig))) =
      rows.filter (keyText sig groupBy · = keyText sig groupBy row) := by
  have htext : ∀ row ∈ rows, groupKeyString row (groupBy.map (columnIdx sig)) = keyText sig groupBy row := fun row hrow => by
    rw [groupKeyString_eq (hasKey_of_resolved hresolved (haligned row hrow)), keyTuple_eq hresolved]
    rfl
  refine filter_congr fun row' hrow' => ?_
  rw [htext row' hrow', htext row hrow]

theorem mem_engineRows {out : Row} :
    out ∈ engineRows sig groupBy aggs rows ↔
      ∃ row group, rows.filter (keyText sig groupBy · = keyText sig groupBy row) = row :: group ∧ out =
        engineRow sig groupBy aggs row (row :: group) := by
  rw [engineRows, mem_groupRows (length_map ..)]
  constructor
  · rintro ⟨row, group, hgroup, rfl⟩
    have hrow : row ∈ rows := (mem_filter.1 (hgroup ▸ mem_cons_self .. : row ∈ rows.filter _)).1
    rw [filter_keyText hresolved haligned hrow] at hgroup
    exact ⟨row, group, hgroup, by rw [groupRow, keyTuple_eq hresolved, states_finalize hresolved, engineRow]⟩
  · rintro ⟨row, group, hgroup, rfl⟩
    have hrow : row ∈ rows := (mem_filter.1 (hgroup ▸ mem_cons_self .. : row ∈ rows.filter _)).1
    rw [← filter_keyText hresolved haligned hrow] at hgroup
    exact ⟨row, group, hgroup, by rw [groupRow, keyTuple_eq hresolved, states_finalize hresolved, engineRow]⟩

omit hresolved haligned

theorem mem_referenceRows {out : Row} :
    out ∈ referenceRows sig groupBy aggs rows ↔ ∃ row ∈ rows, out = referenceRow sig groupBy aggs rows (keyOf sig groupBy row) := by
  simp only [referenceRows, mem_map, mem_firsts, exists_exists_and_eq_and]
  exact exists_congr fun row => and_congr_right fun _ => eq_comm

theorem take_referenceRow (row : Row) :
    (referenceRow sig groupBy aggs rows (keyOf sig groupBy row)).take groupBy.length = keyOf sig groupBy row := take_left' (length_map ..)

theorem take_engineRow (row : Row) (group : List Row) : (engineRow sig groupBy aggs row group).take groupBy.length = keyOf sig groupBy row :=
  take_left' (length_map ..)

theorem nodup_referenceRows : (referenceRows sig groupBy aggs rows).Nodup := by
  refine List.Nodup.map_on (fun key hkey key' hkey' heq => ?_) (nodup_firsts _)
  obtain ⟨row, -, rfl⟩ := mem_map.1 (mem_firsts.1 hkey)
  obtain ⟨row', -, rfl⟩ := mem_map.1 (mem_firsts.1 hkey')
  rw [← @take_referenceRow sig groupBy aggs rows row, heq, take_referenceRow]

/-- A group comes out right exactly if its nulls are harmless. -/
theorem engineRow_eq_iff {group : List Row} (hgroup : group = rows.filter (keyOf sig groupBy · = keyOf sig groupBy row)) :
    engineRow sig groupBy aggs row group = referenceRow sig groupBy aggs rows (keyOf sig groupBy row) ↔
      ∀ agg ∈ aggs, NullsHarmless agg (group.map (inputOf sig agg)) := by
  subst hgroup
  rw [engineRow, referenceRow, append_cancel_left_eq, map_inj_left]
  refine forall₂_congr fun agg _ => ?_
  have hcount : agg = .count → none ∉ (rows.filter (keyOf sig groupBy · = keyOf sig groupBy row)).map (inputOf sig agg) := by
    rintro rfl hnone
    obtain ⟨row, -, hrow⟩ := mem_map.1 hnone
    cases hrow
  have hiff := finalize_getD_iff agg _ hcount
  rw [map_map, filterMap_map] at hiff
  exact hiff

/-- A null in a group of a column, and a value that makes up for it. -/
theorem covered_iff {agg : AggFn} {field : Utf8} (hfield : agg.field? = some field) (P : Int64 → Prop) :
    (∀ row ∈ rows, none ∈ (rows.filter (keyOf sig groupBy · = keyOf sig groupBy row)).map (inputOf sig agg) →
        ∃ v, some v ∈ (rows.filter (keyOf sig groupBy · = keyOf sig groupBy row)).map (inputOf sig agg) ∧ P v) ↔
      ∀ row ∈ rows, cellOf sig field row = .null →
        ∃ row' ∈ rows, keyOf sig groupBy row' = keyOf sig groupBy row ∧ cellOf sig field row' ≠ .null ∧ P (cellOf sig field row').asLong := by
  have hnone : ∀ row, inputOf sig agg row = none ↔ cellOf sig field row = .null := fun row => by
    simp only [inputOf, hfield]
    cases cellOf sig field row <;> simp
  have hsome : ∀ row v, inputOf sig agg row = some v ↔ cellOf sig field row ≠ .null ∧ (cellOf sig field row).asLong = v := fun row v => by
    simp only [inputOf, hfield]
    cases cellOf sig field row <;> simp
  constructor
  · intro h row hrow hnull
    obtain ⟨v, hv, hP⟩ := h row hrow (mem_map.2 ⟨row, mem_filter.2 ⟨hrow, decide_eq_true rfl⟩, (hnone row).2 hnull⟩)
    obtain ⟨row', hrow', hin⟩ := mem_map.1 hv
    obtain ⟨hrow', hkey⟩ := mem_filter.1 hrow'
    obtain ⟨hne, rfl⟩ := (hsome row' v).1 hin
    exact ⟨row', hrow', of_decide_eq_true hkey, hne, hP⟩
  · intro h row _ hnull
    obtain ⟨row₀, hrow₀, hin⟩ := mem_map.1 hnull
    obtain ⟨hrow₀, hkey₀⟩ := mem_filter.1 hrow₀
    obtain ⟨row', hrow', hkey, hne, hP⟩ := h row₀ hrow₀ ((hnone row₀).1 hin)
    have hgroup : row' ∈ rows.filter (keyOf sig groupBy · = keyOf sig groupBy row) :=
      mem_filter.2 ⟨hrow', decide_eq_true (hkey.trans (of_decide_eq_true hkey₀))⟩
    exact ⟨_, mem_map.2 ⟨row', hgroup, (hsome row' _).2 ⟨hne, rfl⟩⟩, hP⟩

/-- The conditions on nulls, group by group. -/
theorem nullsHarmless_iff :
    (∀ row ∈ rows, ∀ agg ∈ aggs, NullsHarmless agg ((rows.filter (keyOf sig groupBy · = keyOf sig groupBy row)).map (inputOf sig agg))) ↔
      (∀ field, AggFn.longMin field ∈ aggs → ∀ row ∈ rows, cellOf sig field row = .null →
        ∃ row' ∈ rows, keyOf sig groupBy row' = keyOf sig groupBy row ∧ cellOf sig field row' ≠ .null ∧ (cellOf sig field row').asLong ≤ 0) ∧
      (∀ field, AggFn.longMax field ∈ aggs → ∀ row ∈ rows, cellOf sig field row = .null →
        ∃ row' ∈ rows, keyOf sig groupBy row' = keyOf sig groupBy row ∧ cellOf sig field row' ≠ .null ∧ 0 ≤ (cellOf sig field row').asLong) := by
  constructor
  · intro h
    exact ⟨fun field hfield => (@covered_iff _ _ _ (.longMin field) _ rfl (· ≤ 0)).1 fun row hrow => h row hrow _ hfield,
      fun field hfield => (@covered_iff _ _ _ (.longMax field) _ rfl (0 ≤ ·)).1 fun row hrow => h row hrow _ hfield⟩
  · rintro ⟨hmin, hmax⟩ row hrow agg hagg
    cases agg with
    | count =>
      intro hcount
      obtain ⟨row', -, hin⟩ := mem_map.1 hcount
      cases hin
    | longSum field => trivial
    | longMin field => exact (covered_iff rfl (· ≤ 0)).2 (hmin field hagg) row hrow
    | longMax field => exact (covered_iff rfl (0 ≤ ·)).2 (hmax field hagg) row hrow

/-- Rows of one text are rows of one key. -/
theorem filter_key_of_keys (hkeys : ∀ row ∈ rows, ∀ row' ∈ rows, keyText sig groupBy row = keyText sig groupBy row' →
      keyOf sig groupBy row = keyOf sig groupBy row') (hrow : row ∈ rows) :
    rows.filter (keyText sig groupBy · = keyText sig groupBy row) = rows.filter (keyOf sig groupBy · = keyOf sig groupBy row) :=
  filter_congr fun row' hrow' => decide_eq_decide.2 ⟨hkeys row' hrow' row hrow, congrArg joined⟩

/-- The row that leads the rows of a text. -/
theorem exists_lead (hrow : row ∈ rows) :
    ∃ lead group, rows.filter (keyText sig groupBy · = keyText sig groupBy lead) = lead :: group ∧
      keyText sig groupBy lead = keyText sig groupBy row := by
  cases hgroup : rows.filter (keyText sig groupBy · = keyText sig groupBy row) with
  | nil => exact absurd (decide_eq_true rfl) (filter_eq_nil_iff.1 hgroup row hrow)
  | cons lead group =>
    have hlead : lead ∈ rows.filter (keyText sig groupBy · = keyText sig groupBy row) := hgroup ▸ mem_cons_self ..
    have htext := of_decide_eq_true (mem_filter.1 hlead).2
    exact ⟨lead, group, by rw [htext, hgroup], htext⟩

include hresolved haligned

theorem engineRows_perm_iff : (engineRows sig groupBy aggs rows).Perm (referenceRows sig groupBy aggs rows) ↔ Faithful sig groupBy aggs rows := by
  have hmemEngine := fun out => @mem_engineRows _ _ _ _ hresolved haligned out
  constructor
  · intro hperm
    -- the engine has a row for every key, and one row for every text
    have hlead : ∀ row ∈ rows, ∃ lead group, rows.filter (keyText sig groupBy · = keyText sig groupBy lead) = lead :: group ∧
        keyOf sig groupBy lead = keyOf sig groupBy row ∧
        engineRow sig groupBy aggs lead (lead :: group) = referenceRow sig groupBy aggs rows (keyOf sig groupBy row) := by
      intro row hrow
      obtain ⟨lead, group, hgroup, hout⟩ := (hmemEngine _).1 (hperm.symm.subset (mem_referenceRows.2 ⟨row, hrow, rfl⟩))
      refine ⟨lead, group, hgroup, ?_, hout.symm⟩
      rw [← @take_engineRow sig groupBy aggs lead (lead :: group), ← hout, take_referenceRow]
    have hkeys : ∀ row ∈ rows, ∀ row' ∈ rows, keyText sig groupBy row = keyText sig groupBy row' → keyOf sig groupBy row = keyOf sig groupBy row' := by
      intro row hrow row' hrow' htext
      obtain ⟨lead, group, hgroup, hkey, -⟩ := hlead row hrow
      obtain ⟨lead', group', hgroup', hkey', -⟩ := hlead row' hrow'
      have hsame : keyText sig groupBy lead = keyText sig groupBy lead' := by
        rw [keyText, hkey, keyText, hkey']
        exact htext
      rw [hsame, hgroup'] at hgroup
      rw [← hkey, ← hkey', (List.cons.inj hgroup).1]
    obtain ⟨hmin, hmax⟩ := nullsHarmless_iff.1 fun row hrow => by
      obtain ⟨lead, group, hgroup, hkey, hout⟩ := hlead row hrow
      have hmem : lead ∈ rows := (mem_filter.1 (hgroup ▸ mem_cons_self .. : lead ∈ rows.filter _)).1
      rw [filter_key_of_keys hkeys hmem] at hgroup
      rw [← hkey] at hout ⊢
      rw [hgroup]
      exact (engineRow_eq_iff hgroup.symm).1 hout
    exact ⟨hkeys, hmin, hmax⟩
  · intro hfaithful
    have hnulls := nullsHarmless_iff.2 ⟨hfaithful.minima, hfaithful.maxima⟩
    have hrowEq : ∀ row group, rows.filter (keyText sig groupBy · = keyText sig groupBy row) = row :: group →
        row ∈ rows ∧ engineRow sig groupBy aggs row (row :: group) = referenceRow sig groupBy aggs rows (keyOf sig groupBy row) := by
      intro row group hgroup
      have hmem : row ∈ rows := (mem_filter.1 (hgroup ▸ mem_cons_self .. : row ∈ rows.filter _)).1
      rw [filter_key_of_keys hfaithful.keys hmem] at hgroup
      refine ⟨hmem, (engineRow_eq_iff hgroup.symm).2 ?_⟩
      rw [← hgroup]
      exact hnulls row hmem
    have hnodup : (engineRows sig groupBy aggs rows).Nodup :=
      nodup_groupRows (length_map ..) fun row hrow => hasKey_of_resolved hresolved (haligned row hrow)
    refine (perm_ext_iff_of_nodup hnodup nodup_referenceRows).2 fun out => ?_
    rw [hmemEngine, mem_referenceRows]
    constructor
    · rintro ⟨row, group, hgroup, rfl⟩
      exact ⟨row, (hrowEq row group hgroup).1, (hrowEq row group hgroup).2⟩
    · rintro ⟨row, hrow, rfl⟩
      obtain ⟨lead, group, hgroup, htext⟩ := exists_lead hrow
      obtain ⟨hmem, hout⟩ := hrowEq lead group hgroup
      refine ⟨lead, group, hgroup, ?_⟩
      rw [hout, hfaithful.keys lead hmem row hrow htext]

end

/-! ## Assignments of rows -/

/-- Rows dealt out to partitions in any way. -/
structure Assignment (rows : List Row) where
  parts : List (List Row)
  parts_ne : parts ≠ []
  covers : parts.flatten.Perm rows

variable {text : JsonText} {rows' : List Row}

theorem PlainRows.of_subset (h : PlainRows rows) (hsub : rows' ⊆ rows) : PlainRows rows' := fun row hrow => h row (hsub hrow)

theorem Faithful.perm (h : Faithful sig groupBy aggs rows) (hperm : rows.Perm rows') : Faithful sig groupBy aggs rows' where
  keys row hrow row' hrow' := h.keys row (hperm.symm.subset hrow) row' (hperm.symm.subset hrow')
  minima field hfield row hrow hnull := by
    obtain ⟨row', hrow', hrest⟩ := h.minima field hfield row (hperm.symm.subset hrow) hnull
    exact ⟨row', hperm.subset hrow', hrest⟩
  maxima field hfield row hrow hnull := by
    obtain ⟨row', hrow', hrest⟩ := h.maxima field hfield row (hperm.symm.subset hrow) hnull
    exact ⟨row', hperm.subset hrow', hrest⟩

theorem referenceRows_perm (hperm : rows.Perm rows') :
    (referenceRows sig groupBy aggs rows).Perm (referenceRows sig groupBy aggs rows') := by
  have hrow : ∀ key, referenceRow sig groupBy aggs rows key = referenceRow sig groupBy aggs rows' key := by
    intro key
    unfold referenceRow
    congr 1
    refine map_congr_left fun agg _ => congrArg AggState.finalize ?_
    exact AggState.foldl_perm ((hperm.filter _).filterMap _) _
  refine (perm_ext_iff_of_nodup nodup_referenceRows nodup_referenceRows).2 fun out => ?_
  simp only [mem_referenceRows, hrow, hperm.mem_iff]

variable {table : InputTable}

/-- What an aggregate stage over dealt rows comes to. -/
theorem aggregatePartitions_agrees_iff (hplain : PlainRows table.rows) (config : EngineConfig)
    (assignment : Assignment table.rows) :
    Agrees (aggregatePartitions text table.signature groupBy aggs config assignment.parts) (reference table.signature groupBy aggs table.rows) ↔
      (Resolved table.signature groupBy aggs → (∀ part ∈ assignment.parts, Readable text config.spillThresholdBytes part) ∧
        Faithful table.signature groupBy aggs table.rows) := by
  have hsub : ∀ part ∈ assignment.parts, part ⊆ table.rows := fun part hpart row hrow =>
    assignment.covers.subset (mem_flatten.2 ⟨part, hpart, hrow⟩)
  unfold reference
  by_cases hresolved : Resolved table.signature groupBy aggs
  · rw [if_pos hresolved]
    simp only [hresolved, true_implies]
    by_cases hread : ∀ part ∈ assignment.parts, Readable text config.spillThresholdBytes part
    · obtain ⟨rows, counters, hperm, hrun⟩ := aggregatePartitions_ok (resolveGroup_of_resolved hresolved) (resolveFields_of_resolved hresolved)
        (fun part hpart row hrow => hasKey_of_resolved hresolved (table.aligned row (hsub part hpart hrow)))
        (fun part hpart => hplain.of_subset (hsub part hpart)) hread
      have hrows := hperm.trans assignment.covers
      have haligned : ∀ row ∈ rows, row.length = table.signature.columns.length := fun row hrow => table.aligned row (hrows.subset hrow)
      have hiff := engineRows_perm_iff hresolved haligned
      rw [hrun]
      refine ⟨fun h => ⟨hread, (hiff.1 (List.Perm.trans h (referenceRows_perm hrows.symm))).perm hrows⟩, fun h => ?_⟩
      exact (hiff.2 (h.2.perm hrows.symm)).trans (referenceRows_perm hrows)
    · simp only [not_forall] at hread
      obtain ⟨part, hpart, hfails⟩ := hread
      obtain ⟨e, he⟩ := bufferPartition_of_not_readable hfails
      obtain ⟨e', he'⟩ := @aggregatePartitions_error _ table.signature groupBy aggs _ _ _ hpart ⟨e, by rw [aggregatePart, he]; rfl⟩
      rw [he']
      exact iff_of_false id fun h => hfails (h.1 part hpart)
  · rw [if_neg hresolved]
    obtain ⟨part, hpart⟩ := exists_mem_of_ne_nil _ assignment.parts_ne
    have hfails : ∃ e, aggregatePart text table.signature groupBy aggs config.spillThresholdBytes part = .error e := by
      rw [aggregatePart]
      cases bufferPartition text config.spillThresholdBytes part with
      | error e => exact ⟨e, rfl⟩
      | ok drained =>
        obtain ⟨e, he⟩ := aggregateRows_of_not_resolved hresolved drained.1
        refine ⟨e, ?_⟩
        rw [ok_bind]
        simp only [he]
        rfl
    obtain ⟨e, he⟩ := aggregatePartitions_error hpart hfails
    rw [he]
    exact iff_of_true trivial fun h => absurd h hresolved

/-- The rows that a stage puts out are those of the groups of all rows. -/
theorem rows_of_aggregatePartitions (hplain : PlainRows table.rows) {config : EngineConfig} (assignment : Assignment table.rows)
    {out : List Row} {counters : StageCounters}
    (h : aggregatePartitions text table.signature groupBy aggs config assignment.parts = .ok (out, counters)) :
    Resolved table.signature groupBy aggs ∧ ∃ rows, rows.Perm table.rows ∧ out = engineRows table.signature groupBy aggs rows := by
  have hsub : ∀ part ∈ assignment.parts, part ⊆ table.rows := fun part hpart row hrow =>
    assignment.covers.subset (mem_flatten.2 ⟨part, hpart, hrow⟩)
  have hpart : ∀ part ∈ assignment.parts, ∃ result, aggregatePart text table.signature groupBy aggs config.spillThresholdBytes part = .ok result := by
    intro part hpart
    cases hresult : aggregatePart text table.signature groupBy aggs config.spillThresholdBytes part with
    | ok result => exact ⟨result, rfl⟩
    | error e =>
      obtain ⟨e', he'⟩ := aggregatePartitions_error hpart ⟨e, hresult⟩
      rw [he'] at h
      cases h
  have hresolved : Resolved table.signature groupBy aggs := by
    by_contra hmissing
    obtain ⟨part, hmem⟩ := exists_mem_of_ne_nil _ assignment.parts_ne
    obtain ⟨result, hresult⟩ := hpart part hmem
    obtain ⟨drained, -, hrest⟩ := bind_eq_ok.1 hresult
    obtain ⟨e, he⟩ := aggregateRows_of_not_resolved hmissing drained.1
    simp only [he] at hrest
    cases hrest
  have hread : ∀ part ∈ assignment.parts, Readable text config.spillThresholdBytes part := by
    intro part hmem
    by_contra hfails
    obtain ⟨result, hresult⟩ := hpart part hmem
    obtain ⟨e, he⟩ := bufferPartition_of_not_readable hfails
    rw [aggregatePart, he] at hresult
    cases hresult
  obtain ⟨rows, counters', hperm, hrun⟩ := aggregatePartitions_ok (resolveGroup_of_resolved hresolved) (resolveFields_of_resolved hresolved)
    (fun part hpart row hrow => hasKey_of_resolved hresolved (table.aligned row (hsub part hpart hrow)))
    (fun part hpart => hplain.of_subset (hsub part hpart)) hread
  rw [hrun] at h
  exact ⟨hresolved, rows, hperm.trans assignment.covers, (Prod.ext_iff.1 (Except.ok.inj h)).1.symm⟩

theorem engineRows_perm (hresolved : Resolved table.signature groupBy aggs) (hfaithful : Faithful table.signature groupBy aggs table.rows)
    {rows : List Row} (hperm : rows.Perm table.rows) :
      engineRows table.signature groupBy aggs rows = engineRows table.signature groupBy aggs table.rows := by
  have htext : ∀ row ∈ table.rows, groupKeyString row (groupBy.map (columnIdx table.signature)) =
    keyText table.signature groupBy row := fun row hrow => by
    rw [groupKeyString_eq (hasKey_of_resolved hresolved (table.aligned row hrow)), keyTuple_eq hresolved]
    rfl
  refine groupRows_perm (length_map ..) hperm fun row hrow row' hrow' htexts => ?_
  rw [htext row (hperm.subset hrow), htext row' (hperm.subset hrow')] at htexts
  rw [keyTuple_eq hresolved, keyTuple_eq hresolved]
  exact hfaithful.keys row (hperm.subset hrow) row' (hperm.subset hrow') htexts

/-! ## The shuffle -/

theorem hashPartition_lt (row : Row) (keyIdx : List ℕ) {n : ℕ} (hn : 0 < n) : hashPartition row keyIdx n < n := by
  unfold hashPartition
  split_ifs
  · exact hn
  · exact Nat.mod_lt _ hn

/-- The shuffle of an aggregate stage deals out the rows. -/
theorem covers_of_partitionRows {config : EngineConfig} {parts : List (List Row)}
    (h : partitionRows rows sig (aggregateShuffle groupBy config) = .ok parts) : parts ≠ [] ∧ parts.flatten.Perm rows := by
  unfold partitionRows at h
  simp only at h
  split_ifs at h with hcap
  unfold aggregateShuffle at h hcap
  split_ifs at h hcap with hgroup
  · cases h
    exact ⟨cons_ne_nil _ _, by simp⟩
  · obtain ⟨keyIdx, -, hparts⟩ := bind_eq_ok.1 h
    cases hparts
    have hn : 0 < (ShuffleSpec.hash groupBy (max config.workers 1)).partitionCount := by
      simp [ShuffleSpec.partitionCount]
    refine ⟨fun hnil => ?_, flatten_buckets_perm _ fun row _ => hashPartition_lt row keyIdx hn⟩
    rw [map_eq_nil_iff, range_eq_nil] at hnil
    omega

theorem partitionRows_of_resolved (hresolved : Resolved sig groupBy aggs) (config : EngineConfig) :
    (∃ parts, partitionRows rows sig (aggregateShuffle groupBy config) = .ok parts) ↔ groupBy = [] ∨ config.workers ≤ MAX_SHUFFLE_PARTITIONS := by
  have hone : 1 ≤ MAX_SHUFFLE_PARTITIONS := by decide
  unfold partitionRows aggregateShuffle
  by_cases hgroup : groupBy = []
  · simp only [hgroup, if_true, ShuffleSpec.partitionCount, if_neg (Nat.not_lt.2 hone), true_or, iff_true]
    exact ⟨_, rfl⟩
  · simp only [hgroup, if_false, ShuffleSpec.partitionCount, false_or, resolveKey_of_resolved hresolved, ok_bind]
    split_ifs with hcap
    · exact iff_of_false nofun (by omega)
    · exact iff_of_true ⟨_, rfl⟩ (by omega)

/-! ## Every shape -/

/-- An aggregate stage gives the reference result exactly if keys are told apart by
their texts, no null stands for a minimum or maximum, there are not too many
workers for a shuffle, and the spilled frames can be read; whatever the workers, the
spill threshold and the assignment of rows, all results are then the same. -/
theorem aggregate_agrees_iff (text : JsonText) (table : InputTable) (hplain : PlainRows table.rows) (groupBy : List Utf8) (aggs : List AggFn) :
    (∀ config, Agrees (runAggregate text table.signature groupBy aggs config table.rows) (reference table.signature groupBy aggs table.rows) ↔
      (Resolved table.signature groupBy aggs →
        (groupBy = [] ∨ config.workers ≤ MAX_SHUFFLE_PARTITIONS) ∧
        (∀ parts, partitionRows table.rows table.signature (aggregateShuffle groupBy config) = .ok parts →
          ∀ part ∈ parts, Readable text config.spillThresholdBytes part) ∧
        Faithful table.signature groupBy aggs table.rows)) ∧
    (∀ config (assignment : Assignment table.rows),
      Agrees (aggregatePartitions text table.signature groupBy aggs config assignment.parts) (reference table.signature groupBy aggs table.rows) ↔
      (Resolved table.signature groupBy aggs →
        (∀ part ∈ assignment.parts, Readable text config.spillThresholdBytes part) ∧ Faithful table.signature groupBy aggs table.rows)) ∧
    (Faithful table.signature groupBy aggs table.rows →
      ∃ out, (∀ config rows counters, runAggregate text table.signature groupBy aggs config table.rows = .ok (rows, counters) → rows = out) ∧
        ∀ config (assignment : Assignment table.rows) rows counters,
          aggregatePartitions text table.signature groupBy aggs config assignment.parts = .ok (rows, counters) → rows = out) := by
  refine ⟨fun config => ?_, fun config assignment => aggregatePartitions_agrees_iff hplain config assignment, fun hfaithful => ?_⟩
  · unfold runAggregate
    cases hparts : partitionRows table.rows table.signature (aggregateShuffle groupBy config) with
    | error e =>
      unfold reference
      by_cases hresolved : Resolved table.signature groupBy aggs
      · rw [if_pos hresolved]
        refine iff_of_false id fun h => ?_
        obtain ⟨parts, hok⟩ := (partitionRows_of_resolved hresolved config).2 (h hresolved).1
        rw [hparts] at hok
        cases hok
      · rw [if_neg hresolved]
        exact iff_of_true trivial fun h => absurd h hresolved
    | ok parts =>
      obtain ⟨hne, hcovers⟩ := covers_of_partitionRows hparts
      refine (aggregatePartitions_agrees_iff hplain config ⟨parts, hne, hcovers⟩).trans (imp_congr_right fun hresolved => ?_)
      have hcap := (partitionRows_of_resolved hresolved config).1 ⟨parts, hparts⟩
      simp only [hcap, true_and, Except.ok.injEq, forall_eq']
  · have hout : ∀ config (assignment : Assignment table.rows) rows counters,
        aggregatePartitions text table.signature groupBy aggs config assignment.parts = .ok (rows, counters) →
        rows = engineRows table.signature groupBy aggs table.rows := by
      intro config assignment out counters h
      obtain ⟨hresolved, rows, hperm, rfl⟩ := rows_of_aggregatePartitions hplain assignment h
      exact engineRows_perm hresolved hfaithful hperm
    refine ⟨_, fun config out counters h => ?_, hout⟩
    obtain ⟨parts, hparts, hrun⟩ := bind_eq_ok.1 h
    obtain ⟨hne, hcovers⟩ := covers_of_partitionRows hparts
    exact hout config ⟨parts, hne, hcovers⟩ out counters hrun

instance (run : Except DruidError (List Row × StageCounters)) (expected : Option (List Row)) : Decidable (Agrees run expected) := by
  unfold Agrees
  split <;> infer_instance

def columnA : Utf8 := ⟨ascii "a", Eq.refl true⟩

def columnB : Utf8 := ⟨ascii "b", Eq.refl true⟩

/-- Two rows over two columns. -/
def twoRows (a b a' b' : Value) : InputTable where
  signature := ⟨[columnA, columnB]⟩
  rows := [[a, b], [a', b']]
  aligned := by simp

def cell (bs : Bytes) (h : validUtf8 bs = true) : Value := .str ⟨bs, h⟩

/-- A threshold of zero writes no frame. -/
def noText : JsonText := ⟨fun _ => 0, id⟩

theorem aggregate_agrees_iff_two :
    Agrees (runAggregate noText ⟨[columnA, columnB]⟩ [columnA] [.count, .longSum columnB] ⟨2, 0⟩ (twoRows (.long 1) (.long 7) (.long 2) .null).rows)
      (reference ⟨[columnA, columnB]⟩ [columnA] [.count, .longSum columnB] (twoRows (.long 1) (.long 7) (.long 2) .null).rows) := by
  have hplain : PlainRows (twoRows (.long 1) (.long 7) (.long 2) .null).rows := by
    intro row hrow cell hcell x hx
    subst hx
    simp [twoRows] at hrow
    rcases hrow with rfl | rfl <;> simp at hcell
  refine ((aggregate_agrees_iff noText _ hplain [columnA] [.count, .longSum columnB]).1 ⟨2, 0⟩).2 fun _ => ?_
  refine ⟨.inr (by decide), fun parts _ part _ frame _ => Nat.zero_le _, ?_, ?_, ?_⟩
  · decide
  · intro field hfield
    simp at hfield
  · intro field hfield
    simp at hfield

/-- A separator inside a string makes one group of two, and a null among positive
values is their minimum. -/
theorem aggregate_disagrees :
    ¬ Agrees (runAggregate noText ⟨[columnA, columnB]⟩ [columnA, columnB] [.count] ⟨1, 0⟩
      (twoRows (cell [0x78] (by decide)) (cell [0x79, 0x01, 0x53, 0x7A] (by decide))
        (cell [0x78, 0x01, 0x53, 0x79] (by decide)) (cell [0x7A] (by decide))).rows)
      (reference ⟨[columnA, columnB]⟩ [columnA, columnB] [.count]
      (twoRows (cell [0x78] (by decide)) (cell [0x79, 0x01, 0x53, 0x7A] (by decide))
        (cell [0x78, 0x01, 0x53, 0x79] (by decide)) (cell [0x7A] (by decide))).rows) ∧
    ¬ Agrees (runAggregate noText ⟨[columnA, columnB]⟩ [columnA] [.longMin columnB] ⟨1, 0⟩ (twoRows (.long 1) (.long 5) (.long 1) .null).rows)
      (reference ⟨[columnA, columnB]⟩ [columnA] [.longMin columnB] (twoRows (.long 1) (.long 5) (.long 1) .null).rows) := by
  decide +kernel

end FerroDruid.Msq
