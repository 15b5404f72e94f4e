import FerroDruid.Lib.Gather
import FerroDruid.Msq.Engine
/-!
# Partial groups

A state fed the partial value of some rows is the state fed those rows, so merging
the groups of parts gives the groups of all the rows, however they were parted.
-/

namespace FerroDruid.Msq

open Lib List

/-! ## Longs -/

instance : Std.Associative minLong where
  assoc a b c := by
    unfold minLong
    simp only [Int64.lt_iff_toInt_lt]
    split_ifs <;> first | rfl | omega

instance : Std.Commutative minLong where
  comm a b := by
    unfold minLong
    simp only [Int64.lt_iff_toInt_lt]
    split_ifs <;> first | rfl | omega | (apply Int64.toInt_inj.1; omega)

instance : Std.Associative maxLong where
  assoc a b c := by
    unfold maxLong
    simp only [Int64.lt_iff_toInt_lt]
    split_ifs <;> first | rfl | omega

instance : Std.Commutative maxLong where
  comm a b := by
    unfold maxLong
    simp only [Int64.lt_iff_toInt_lt]
    split_ifs <;> first | rfl | omega | (apply Int64.toInt_inj.1; omega)

/-! ## States -/

namespace AggState

variable {vs : List Int64}

theorem foldl_count (vs : List Int64) (c : Int64) : vs.foldl accumulate (count c) = count ((vs.map fun _ => 1).foldl (· + ·) c) := by
  induction vs generalizing c with
  | nil => rfl
  | cons v vs ih => exact ih _

theorem foldl_sum (vs : List Int64) (s : Int64) : vs.foldl accumulate (sum s) = sum (vs.foldl (· + ·) s) := by
  induction vs generalizing s with
  | nil => rfl
  | cons v vs ih => exact ih _

theorem foldl_min (vs : List Int64) (m : Option Int64) : vs.foldl accumulate (min m) = min (Option.merge minLong m (total minLong vs)) := by
  rw [← foldl_merge]
  induction vs generalizing m with
  | nil => rfl
  | cons v vs ih =>
    refine (ih _).trans ?_
    cases m <;> rfl

theorem foldl_max (vs : List Int64) (m : Option Int64) : vs.foldl accumulate (max m) = max (Option.merge maxLong m (total maxLong vs)) := by
  rw [← foldl_merge]
  induction vs generalizing m with
  | nil => rfl
  | cons v vs ih =>
    refine (ih _).trans ?_
    cases m <;> rfl

theorem foldl_add (vs : List Int64) (s : Int64) : vs.foldl (· + ·) s = s + vs.foldl (· + ·) 0 := by
  have : Std.Associative (α := Int64) (· + ·) := ⟨Int64.add_assoc⟩
  have h := @List.foldl_assoc _ (· + ·) _ vs s 0
  rwa [Int64.add_zero] at h

/-- Merging the partial value of some inputs is feeding them. -/
theorem merge_ofPartial (agg : AggFn) (us : List Int64) (hvs : vs ≠ []) :
    (us.foldl accumulate (init agg)).merge (ofPartial agg (us.foldl accumulate (init agg)) (vs.foldl accumulate (init agg)).finalize.asLong) =
      (us ++ vs).foldl accumulate (init agg) := by
  rw [foldl_append]
  cases agg with
  | count =>
    simp only [init, foldl_count, finalize, Value.asLong, ofPartial, merge]
    exact congrArg count (foldl_add _ _).symm
  | longSum field =>
    simp only [init, foldl_sum, finalize, Value.asLong, ofPartial, merge]
    exact congrArg sum (foldl_add _ _).symm
  | longMin field =>
    simp only [init, foldl_min, Option.merge_none_left]
    cases htotal : total minLong vs with
    | none => exact absurd (total_eq_none_iff.1 htotal) hvs
    | some t => rfl
  | longMax field =>
    simp only [init, foldl_max, Option.merge_none_left]
    cases htotal : total maxLong vs with
    | none => exact absurd (total_eq_none_iff.1 htotal) hvs
    | some t => rfl

/-- The order of the inputs does not matter. -/
theorem accumulate_comm (st : AggState) (v w : Int64) : (st.accumulate v).accumulate w = (st.accumulate w).accumulate v := by
  cases st with
  | count c => rfl
  | sum s => exact congrArg sum (by rw [Int64.add_assoc, Int64.add_comm v, Int64.add_assoc])
  | min m =>
    cases m with
    | none => exact congrArg (min ∘ some) (@Std.Commutative.comm _ minLong _ v w)
    | some m =>
      refine congrArg (min ∘ some) ?_
      calc minLong (minLong m v) w = minLong m (minLong v w) := @Std.Associative.assoc _ minLong _ m v w
        _ = minLong m (minLong w v) := by rw [@Std.Commutative.comm _ minLong _ v w]
        _ = minLong (minLong m w) v := (@Std.Associative.assoc _ minLong _ m w v).symm
  | max m =>
    cases m with
    | none => exact congrArg (max ∘ some) (@Std.Commutative.comm _ maxLong _ v w)
    | some m =>
      refine congrArg (max ∘ some) ?_
      calc maxLong (maxLong m v) w = maxLong m (maxLong v w) := @Std.Associative.assoc _ maxLong _ m v w
        _ = maxLong m (maxLong w v) := by rw [@Std.Commutative.comm _ maxLong _ v w]
        _ = maxLong (maxLong m w) v := (@Std.Associative.assoc _ maxLong _ m w v).symm

theorem foldl_perm {vs' : List Int64} (h : vs.Perm vs') (st : AggState) : vs.foldl accumulate st = vs'.foldl accumulate st :=
  h.foldl_eq' (fun v _ w _ st => accumulate_comm st v w) st

end AggState

/-! ## Keys -/

/-- The cells of the key columns. -/
def keyTuple (groupIdx : List ℕ) (row : Row) : Row := groupIdx.map (row.getD · .null)

/-- The text that stands for a key. -/
def joined (key : Row) : Bytes := key.flatMap fun cell => cell.partitionKeyBytes ++ [0x01]

variable {sig : RowSignature} {groupIdx : List ℕ} {aggs : List AggFn} {aggFieldIdx : List (Option ℕ)}

@[simp] theorem length_keyTuple (row : Row) : (keyTuple groupIdx row).length = groupIdx.length := length_map ..

theorem groupKeyString_eq {row : Row} (h : ∀ i ∈ groupIdx, i < row.length) : groupKeyString row groupIdx = joined (keyTuple groupIdx row) := by
  rw [groupKeyString, joined, keyTuple, flatMap_map]
  refine flatMap_congr fun i hi => ?_
  simp [getElem?_eq_getElem (h i hi)]

/-- A partial row has its key in front. -/
theorem groupKeyString_range (key rest : Row) : groupKeyString (key ++ rest) (List.range key.length) = joined key := by
  rw [groupKeyString_eq fun i hi => by rw [length_append]; exact Nat.lt_add_right _ (mem_range.1 hi)]
  refine congrArg joined (ext_getElem (by simp) fun i hi hi' => ?_)
  simp [keyTuple, getElem?_append_left hi', getElem?_eq_getElem hi']

/-! ## Groups -/

/-- The states of some rows of one key. -/
def states (aggs : List AggFn) (aggFieldIdx : List (Option ℕ)) (rows : List Row) : List AggState :=
  aggs.zipWith (fun agg fieldIdx => (rows.map (aggInput · fieldIdx)).foldl AggState.accumulate (.init agg)) aggFieldIdx

theorem foldl_feedGroup (rows : List Row) (key : Row) (g : AggFn → Option ℕ → AggState) :
    rows.foldl (feedGroup aggFieldIdx) (key, aggs.zipWith g aggFieldIdx) =
      (key, aggs.zipWith (fun agg fieldIdx => (rows.map (aggInput · fieldIdx)).foldl AggState.accumulate (g agg fieldIdx)) aggFieldIdx) := by
  induction rows generalizing g with
  | nil => rfl
  | cons row rows ih =>
    have hfeed : feedGroup aggFieldIdx (key, aggs.zipWith g aggFieldIdx) row =
        (key, aggs.zipWith (fun agg fieldIdx => (g agg fieldIdx).accumulate (aggInput row fieldIdx)) aggFieldIdx) := by
      refine congrArg (Prod.mk key) (ext_getElem? fun j => ?_)
      simp only [getElem?_zipWith]
      cases aggs[j]? <;> cases aggFieldIdx[j]? <;> rfl
    rw [foldl_cons, hfeed, ih]
    rfl

theorem foldl_startGroup (hlength : aggFieldIdx.length = aggs.length) (row : Row) (rows : List Row) :
    rows.foldl (feedGroup aggFieldIdx) (startGroup groupIdx aggs row) = (keyTuple groupIdx row, states aggs aggFieldIdx rows) := by
  have hstart : aggs.map AggState.init = aggs.zipWith (fun agg _ => .init agg) aggFieldIdx :=
    ext_getElem (by simp [hlength]) fun j hj hj' => by simp
  rw [startGroup, hstart, foldl_feedGroup]
  rfl

/-- A partial row merged into the states of other rows. -/
theorem feedPartial_groupRow (key : Row) (row : Row) (xs ys : List Row) (hys : ys ≠ []) :
    feedPartial groupIdx.length aggs (key, states aggs aggFieldIdx xs) (groupRow (keyTuple groupIdx row, states aggs aggFieldIdx ys)) =
      (key, states aggs aggFieldIdx (xs ++ ys)) := by
  have hdrop : (groupRow (keyTuple groupIdx row, states aggs aggFieldIdx ys)).drop groupIdx.length =
    (states aggs aggFieldIdx ys).map AggState.finalize := by
    rw [groupRow, drop_left' (length_keyTuple row)]
  rw [feedPartial, hdrop]
  refine congrArg (Prod.mk key) (ext_getElem? fun j => ?_)
  simp only [states, List.zip, getElem?_zipWith, getElem?_map]
  cases aggs[j]? with
  | none => rfl
  | some agg =>
    cases aggFieldIdx[j]? with
    | none => rfl
    | some fieldIdx =>
      have hmerge := @AggState.merge_ofPartial (ys.map (aggInput · fieldIdx)) agg (xs.map (aggInput · fieldIdx)) (by simpa using hys)
      rw [← map_append] at hmerge
      exact congrArg some hmerge

/-- The rows of all groups. -/
def groupRows (groupIdx : List ℕ) (aggs : List AggFn) (aggFieldIdx : List (Option ℕ)) (rows : List Row) : List Row :=
  (inKeyOrder (groupFold (groupKeyString · groupIdx) (startGroup groupIdx aggs) (feedGroup aggFieldIdx) rows ∅)).map fun group => groupRow group.2

theorem aggregateRows_eq {groupCols : List Utf8} (hgroup : resolveGroup sig groupCols = .ok groupIdx)
    (hfields : resolveFields sig aggs = .ok aggFieldIdx)
    (rows : List Row) : aggregateRows rows sig groupCols aggs = .ok (groupRows groupIdx aggs aggFieldIdx rows) := by
  rw [aggregateRows, hgroup, hfields]
  rfl

/-- Rows that have all the key columns. -/
def HasKey (groupIdx : List ℕ) (row : Row) : Prop := ∀ i ∈ groupIdx, i < row.length

theorem flatMap_groupRows (parts : List (List Row)) :
    parts.flatMap (groupRows groupIdx aggs aggFieldIdx) =
      partialsOf (groupKeyString · groupIdx) (startGroup groupIdx aggs) (feedGroup aggFieldIdx) groupRow parts := rfl

section

variable (hlength : aggFieldIdx.length = aggs.length)

include hlength

theorem groupRows_eq (rows : List Row) :
    groupRows groupIdx aggs aggFieldIdx rows = (sortText (firsts (rows.map (groupKeyString · groupIdx)))).filterMap fun k =>
      match rows.filter (groupKeyString · groupIdx = k) with
      | [] => none
      | row :: group => some (groupRow (keyTuple groupIdx row, states aggs aggFieldIdx (row :: group))) := by
  rw [groupRows, inKeyOrder_groupFold, map_filterMap]
  refine filterMap_congr fun k _ => ?_
  cases rows.filter (groupKeyString · groupIdx = k) with
  | nil => rfl
  | cons row group => exact congrArg (some ∘ groupRow) (foldl_startGroup hlength row (row :: group))

/-- A row of the groups is that of the rows of one text, led by the first. -/
theorem mem_groupRows {rows : List Row} {out : Row} : out ∈ groupRows groupIdx aggs aggFieldIdx rows ↔
      ∃ row group, rows.filter (groupKeyString · groupIdx = groupKeyString row groupIdx) = row :: group ∧
        out = groupRow (keyTuple groupIdx row, states aggs aggFieldIdx (row :: group)) := by
  rw [groupRows_eq hlength, mem_filterMap]
  constructor
  · rintro ⟨k, -, hout⟩
    split at hout
    · cases hout
    · rename_i row group hgroup
      have hrow : row ∈ rows.filter (groupKeyString · groupIdx = k) := hgroup ▸ mem_cons_self ..
      have hkey := of_decide_eq_true (mem_filter.1 hrow).2
      exact ⟨row, group, by rw [hkey, hgroup], (Option.some.inj hout).symm⟩
  · rintro ⟨row, group, hgroup, rfl⟩
    have hrow : row ∈ rows.filter (groupKeyString · groupIdx = groupKeyString row groupIdx) := hgroup ▸ mem_cons_self ..
    refine ⟨groupKeyString row groupIdx, mem_sortText.2 (mem_firsts.2 (mem_map.2 ⟨row, (mem_filter.1 hrow).1, rfl⟩)), ?_⟩
    rw [hgroup]

/-- The key in front of a row of the groups tells its text. -/
theorem nodup_groupRows {rows : List Row} (hkeys : ∀ row ∈ rows, HasKey groupIdx row) :
    (groupRows groupIdx aggs aggFieldIdx rows).Nodup := by
  rw [groupRows_eq hlength]
  have hread : ∀ k row group, rows.filter (groupKeyString · groupIdx = k) = row :: group →
      joined ((groupRow (keyTuple groupIdx row, states aggs aggFieldIdx (row :: group))).take groupIdx.length) = k := by
    intro k row group hgroup
    have hrow : row ∈ rows.filter (groupKeyString · groupIdx = k) := hgroup ▸ mem_cons_self ..
    obtain ⟨hmem, hkey⟩ := mem_filter.1 hrow
    rw [groupRow, take_left' (length_keyTuple row), ← groupKeyString_eq (hkeys row hmem)]
    exact of_decide_eq_true hkey
  refine List.Nodup.filterMap (fun k k' out hout hout' => ?_) ((perm_sortText _).nodup_iff.2 (nodup_firsts _))
  split at hout
  · cases hout
  · rename_i row group hgroup
    split at hout'
    · cases hout'
    · rename_i row' group' hgroup'
      rw [← hread k row group hgroup, ← hread k' row' group' hgroup', Option.some.inj hout, Option.some.inj hout']

/-- With one key for each text, the order of the rows does not matter. -/
theorem groupRows_perm {rows rows' : List Row} (hperm : rows.Perm rows')
    (hone : ∀ row ∈ rows, ∀ row' ∈ rows, groupKeyString row groupIdx = groupKeyString row' groupIdx → keyTuple groupIdx row = keyTuple groupIdx row') :
    groupRows groupIdx aggs aggFieldIdx rows = groupRows groupIdx aggs aggFieldIdx rows' := by
  rw [groupRows_eq hlength, groupRows_eq hlength]
  have htexts : sortText (firsts (rows.map (groupKeyString · groupIdx))) = sortText (firsts (rows'.map (groupKeyString · groupIdx))) := by
    refine sortText_congr ((perm_ext_iff_of_nodup (nodup_firsts _) (nodup_firsts _)).2 fun k => ?_)
    rw [mem_firsts, mem_firsts, (hperm.map _).mem_iff]
  rw [htexts]
  refine filterMap_congr fun k _ => ?_
  have hgroups := hperm.filter (groupKeyString · groupIdx = k)
  cases hgroup : rows.filter (groupKeyString · groupIdx = k) with
  | nil =>
    rw [hgroup] at hgroups
    rw [nil_perm.1 hgroups]
  | cons row group =>
    cases hgroup' : rows'.filter (groupKeyString · groupIdx = k) with
    | nil =>
      rw [hgroup, hgroup'] at hgroups
      cases perm_nil.1 hgroups
    | cons row' group' =>
      have hrow : row ∈ rows.filter (groupKeyString · groupIdx = k) := hgroup ▸ mem_cons_self ..
      have hrow' : row' ∈ rows.filter (groupKeyString · groupIdx = k) := hgroups.symm.subset (hgroup' ▸ mem_cons_self ..)
      obtain ⟨hmem, hkey⟩ := mem_filter.1 hrow
      obtain ⟨hmem', hkey'⟩ := mem_filter.1 hrow'
      rw [hgroup, hgroup'] at hgroups
      have htuple := hone row hmem row' hmem' ((of_decide_eq_true hkey).trans (of_decide_eq_true hkey').symm)
      have hstates : states aggs aggFieldIdx (row :: group) = states aggs aggFieldIdx (row' :: group') := by
        unfold states
        congr 1
        funext agg fieldIdx
        exact AggState.foldl_perm (hgroups.map _) _
      simp only [htuple, hstates]

/-- Merging the groups of parts gives the groups of all rows. -/
theorem mergePartials_groupRows {parts : List (List Row)}
    (hkeys : ∀ part ∈ parts, ∀ row ∈ part, HasKey groupIdx row) {partials : List (List Row)}
    (hpartials : partials.flatten = parts.flatMap (groupRows groupIdx aggs aggFieldIdx)) :
    mergePartials partials groupIdx.length aggs = .ok (groupRows groupIdx aggs aggFieldIdx parts.flatten) := by
  have hfull : ∀ out ∈ partials.flatten, ¬ out.length < groupIdx.length + aggs.length := by
    intro out hout
    rw [hpartials] at hout
    obtain ⟨part, -, hout⟩ := mem_flatMap.1 hout
    obtain ⟨row, group, -, rfl⟩ := (mem_groupRows hlength).1 hout
    simp [groupRow, states, hlength]
  have hnone : partials.flatten.find? (·.length < groupIdx.length + aggs.length) = none :=
    find?_eq_none.2 fun out hout => by simpa using hfull out hout
  unfold mergePartials
  rw [hnone, hpartials, flatMap_groupRows]
  refine congrArg (Except.ok ∘ List.map _) ?_
  refine groupFold_partialsOf (P := HasKey groupIdx) ?_ ?_ ?_ hkeys
  · intro row hrow group
    rw [foldl_startGroup hlength, groupRow, groupKeyString_eq hrow]
    simpa using groupKeyString_range (keyTuple groupIdx row) ((states aggs aggFieldIdx (row :: group)).map AggState.finalize)
  · intro row hrow group
    have hstart : startPartial groupIdx.length aggs (groupRow (keyTuple groupIdx row, states aggs aggFieldIdx (row :: group))) =
        (keyTuple groupIdx row, states aggs aggFieldIdx []) := by
      rw [startPartial, groupRow, take_left' (length_keyTuple row)]
      exact @foldl_startGroup groupIdx _ _ hlength row []
    rw [foldl_startGroup hlength, hstart, feedPartial_groupRow _ _ _ _ (cons_ne_nil _ _)]
    rfl
  · intro row row' _ _ xs ys
    rw [foldl_startGroup hlength, foldl_startGroup hlength, foldl_startGroup hlength, feedPartial_groupRow _ _ _ _ (cons_ne_nil _ _)]

end

end FerroDruid.Msq
