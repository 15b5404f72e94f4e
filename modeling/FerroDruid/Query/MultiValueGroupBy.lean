import FerroDruid.Lib.CappedGroups
import FerroDruid.Lib.Odometer
import FerroDruid.Query.GroupKey
import FerroDruid.Query.Timeseries
import FerroDruid.Segment.StringColumns
import Mathlib.Algebra.Order.BigOperators.Group.List
/-!
# Grouping by several values

`GroupByQuery::accumulate_mv_rows` of `ferrodruid-query/src/groupby.rs`: a row is
fed to one group for every tuple of the elements of its dimensions.

The aggregators of a group are any state with a feed.
-/

namespace FerroDruid.Query

open Lib Segment List

/-! ## Rows -/

section

variable (legacy : Bool)

def renderElement (column : StringMultiColumnData DruidBitmap) (ord : ℕ) : Json :=
  match column.dictionary[ord]? with
  | some s => if legacy = true ∧ s.bytes = [] then .null else .string s
  | none => .null

def renderOrdinals (column : StringMultiColumnData DruidBitmap) : List ℕ → Json
  | [] => .null
  | [ord] => renderElement legacy column ord
  | ords => .array (ords.map (renderElement legacy column))

/-- `column_value_at` of a multi-value column; a row out of range is empty. -/
def renderMulti (column : StringMultiColumnData DruidBitmap) (rowIdx : ℕ) : Json :=
  renderOrdinals legacy column ((column.rowOrdinals rowIdx).getD [])

/-- A segment with its multi-value columns. -/
structure MultiSegment extends SegmentData where
  multi : String → Option (StringMultiColumnData DruidBitmap)
  rendered : ∀ name column, multi name = some column → ∀ rowIdx, row rowIdx name = some (renderMulti legacy column rowIdx)

end

/-- What a query asks of the rows and of the groups. -/
structure MultiValueGroupBy where
  granularity : GranularitySpec
  intervals : List (Int64 × Int64)
  filter : Option FilterSpec
  virtualColumns : VirtualColumns
  active : List DimensionSpec
  maxKeys : ℕ

namespace MultiValueGroupBy

variable (runtime : DimRuntime) (calendar : Calendar) (q : MultiValueGroupBy)

/-- The bucket of a group, and its keys. -/
abbrev GroupId : Type := ℤ × List GroupKey

def matchesRow (row : JsonMap) : Bool :=
  match q.filter with
  | some filter => filter.matchesRow row
  | none => true

/-- The keys of each dimension; nothing if one of them has none. -/
def perDimKeys (row : JsonMap) : List DimensionSpec → Option (List (List GroupKey))
  | [] => some []
  | dim :: rest =>
    match explodeDimValue runtime dim ((row dim.inputName).getD .null) with
    | [] => none
    | keys => (perDimKeys row rest).map (keys :: ·)

def overMax (observed : ℕ) : DruidError := .resourceLimit "groupBy.maxResults" q.maxKeys observed

section

variable {σ : Type} (create : σ) (feed : σ → PassingRow → σ)

def groupOf (e : PassingRow × List GroupKey) : GroupId := (e.1.bucketKey, e.2)

def feedGroup (groups : HashMap GroupId σ) (e : PassingRow × List GroupKey) : Except DruidError (HashMap GroupId σ) :=
  feedCapped q.maxKeys q.overMax groupOf (fun _ => create) (fun s e => feed s e.1) groups e

def accumulateRow (fuel : ℕ) (p : PassingRow) (groups : HashMap GroupId σ) : Option (Except DruidError (HashMap GroupId σ)) :=
  match perDimKeys runtime p.row q.active with
  | none => some (.ok groups)
  | some keys => Odometer.run (fun groups keys => q.feedGroup create feed groups (p, keys)) keys fuel (Odometer.start keys) groups

/-- The fuel is for the odometer of each row. -/
def accumulateMvRows (segment : MultiSegment runtime.legacy) (fuel : ℕ) :
    List (Int64 × ℕ) → JsonMap → HashMap GroupId σ → Option (Except DruidError (HashMap GroupId σ))
  | [], _, groups => some (.ok groups)
  | (ts, rowIdx) :: rows, row, groups =>
    if inIntervals q.intervals ts then
      let row := q.virtualColumns.augmentRow (TimeseriesQuery.updateRow (segment.row rowIdx) row)
      if q.matchesRow row then
        match q.accumulateRow runtime create feed fuel ⟨bucketTimestamp calendar ts q.granularity, rowIdx, row⟩ groups with
        | none => none
        | some (.error e) => some (.error e)
        | some (.ok groups) => accumulateMvRows segment fuel rows row groups
      else accumulateMvRows segment fuel rows row groups
    else accumulateMvRows segment fuel rows row groups

/-- The rows of a segment, into no groups. -/
def accumulate (segment : MultiSegment runtime.legacy) (fuel : ℕ) : Option (Except DruidError (HashMap GroupId σ)) :=
  q.accumulateMvRows runtime calendar create feed segment fuel (segment.timestamps.zipIdx.take segment.numRows) .empty ∅

end

/-! ## What is fed -/

/-- The rows that pass, each with its row map; virtual columns of the row before
are still in the map that is filled. -/
def passingRows (segment : MultiSegment runtime.legacy) : List (Int64 × ℕ) → JsonMap → List PassingRow
  | [], _ => []
  | (ts, rowIdx) :: rows, row =>
    if inIntervals q.intervals ts then
      let row := q.virtualColumns.augmentRow (TimeseriesQuery.updateRow (segment.row rowIdx) row)
      if q.matchesRow row then ⟨bucketTimestamp calendar ts q.granularity, rowIdx, row⟩ :: passingRows segment rows row
      else passingRows segment rows row
    else passingRows segment rows row

def passing (segment : MultiSegment runtime.legacy) : List PassingRow :=
  q.passingRows runtime calendar segment (segment.timestamps.zipIdx.take segment.numRows) .empty

def dimKeys (p : PassingRow) (dim : DimensionSpec) : List GroupKey := explodeDimValue runtime dim ((p.row dim.inputName).getD .null)

/-- The tuples a row is fed under, in order. -/
def rowTuples (p : PassingRow) : List (List GroupKey) := tuples (q.active.map (dimKeys runtime p))

def feeds (ps : List PassingRow) : List (PassingRow × List GroupKey) := ps.flatMap fun p => (q.rowTuples runtime p).map fun keys => (p, keys)

variable (p : PassingRow)

theorem perDimKeys_eq (dims : List DimensionSpec) :
    (perDimKeys runtime p.row dims = none ∧ [] ∈ dims.map (dimKeys runtime p)) ∨
      perDimKeys runtime p.row dims = some (dims.map (dimKeys runtime p)) ∧ ∀ keys ∈ dims.map (dimKeys runtime p), keys ≠ [] := by
  induction dims with
  | nil => exact .inr ⟨rfl, by simp⟩
  | cons dim rest ih =>
    rw [perDimKeys, map_cons]
    cases hkeys : explodeDimValue runtime dim ((p.row dim.inputName).getD .null) with
    | nil => exact .inl ⟨rfl, mem_cons.2 (.inl hkeys.symm)⟩
    | cons k ks =>
      have hdim : dimKeys runtime p dim = k :: ks := hkeys
      rcases ih with ⟨hnone, hmem⟩ | ⟨hsome, hne⟩
      · exact .inl ⟨by rw [hnone]; rfl, mem_cons_of_mem _ hmem⟩
      · refine .inr ⟨by rw [hsome, hdim]; rfl, ?_⟩
        rw [hdim]
        exact forall_mem_cons.2 ⟨by simp, hne⟩

variable {σ : Type} (create : σ) (feed : σ → PassingRow → σ) {fuel : ℕ}

/-- A row feeds its tuples one by one. -/
theorem accumulateRow_eq {p : PassingRow} (hfuel : (q.rowTuples runtime p).length ≤ fuel) (groups : HashMap GroupId σ) :
    q.accumulateRow runtime create feed fuel p groups =
      some ((q.rowTuples runtime p).foldlM (fun groups keys => q.feedGroup create feed groups (p, keys)) groups) := by
  unfold accumulateRow
  rcases perDimKeys_eq runtime p q.active with ⟨hnone, hmem⟩ | ⟨hsome, hne⟩
  · rw [hnone, rowTuples, tuples_eq_nil hmem]
    rfl
  · rw [hsome]
    exact Odometer.run_start _ hne hfuel groups

theorem foldlM_feeds_cons (ps : List PassingRow) (groups : HashMap GroupId σ) :
    (q.feeds runtime (p :: ps)).foldlM (q.feedGroup create feed) groups =
      (q.rowTuples runtime p).foldlM (fun groups keys => q.feedGroup create feed groups (p, keys)) groups >>=
        fun groups => (q.feeds runtime ps).foldlM (q.feedGroup create feed) groups := by
  rw [feeds, flatMap_cons, foldlM_append, foldlM_map]
  rfl

/-- All rows feed their tuples one after the other. -/
theorem accumulateMvRows_eq (segment : MultiSegment runtime.legacy) (rows : List (Int64 × ℕ)) (row : JsonMap)
    (hfuel : ∀ p ∈ q.passingRows runtime calendar segment rows row, (q.rowTuples runtime p).length ≤ fuel) (groups : HashMap GroupId σ) :
    q.accumulateMvRows runtime calendar create feed segment fuel rows row groups =
      some ((q.feeds runtime (q.passingRows runtime calendar segment rows row)).foldlM (q.feedGroup create feed) groups) := by
  induction rows generalizing row groups with
  | nil => rfl
  | cons r rows ih =>
    simp only [accumulateMvRows, passingRows] at hfuel ⊢
    split_ifs at hfuel ⊢
    · have hp := accumulateRow_eq runtime q create feed (hfuel _ (mem_cons_self ..)) groups
      have hrest := ih _ fun p hp => hfuel p (mem_cons_of_mem _ hp)
      rw [hp, foldlM_feeds_cons]
      cases (q.rowTuples runtime _).foldlM (fun groups keys => q.feedGroup create feed groups (_, keys)) groups with
      | error e => rfl
      | ok groups' => exact hrest groups'
    · exact ih _ hfuel groups
    · exact ih _ hfuel groups

/-- The groups that rows are fed to. -/
def groupIds (segment : MultiSegment runtime.legacy) : List GroupId :=
  firsts ((q.feeds runtime (q.passing runtime calendar segment)).map groupOf)

def groups (segment : MultiSegment runtime.legacy) : HashMap GroupId σ :=
  groupFold groupOf (fun _ => create) (fun s e => feed s e.1) (q.feeds runtime (q.passing runtime calendar segment)) ∅

/-- With enough fuel the run ends, with all groups if they fit. -/
theorem accumulate_eq (segment : MultiSegment runtime.legacy)
    (hfuel : ∀ p ∈ q.passing runtime calendar segment, (q.rowTuples runtime p).length ≤ fuel) :
    q.accumulate runtime calendar create feed segment fuel =
      some (if q.maxKeys = 0 ∨ (q.groupIds runtime calendar segment).length ≤ q.maxKeys
        then .ok (q.groups runtime calendar create feed segment) else .error (q.overMax (q.maxKeys + 1))) := by
  have hempty : Fits q.maxKeys (∅ : HashMap GroupId σ) := .inr (Nat.zero_le _)
  have hrun := foldlM_feedCapped q.maxKeys q.overMax groupOf (fun _ => create) (fun s e => feed s e.1)
    (q.feeds runtime (q.passing runtime calendar segment)) hempty
  have hlen := (keys_groupFold_perm groupOf (fun _ => create) (fun (s : σ) e => feed s e.1)
    (q.feeds runtime (q.passing runtime calendar segment))).length_eq
  refine (accumulateMvRows_eq runtime calendar q create feed segment _ _ hfuel ∅).trans (congrArg some (hrun.trans ?_))
  simp only [Fits, hlen]
  rfl

/-! ## What is to be fed -/

section

variable (segment : MultiSegment runtime.legacy)

/-- The multi-value column of a dimension, which a virtual column may hide. -/
def multiColumn (dim : DimensionSpec) : Option (StringMultiColumnData DruidBitmap) :=
  if dim.inputName ∈ q.virtualColumns.names then none else segment.multi dim.inputName

/-- The cell is multi-value and has no elements. -/
def NullCell (p : PassingRow) (dim : DimensionSpec) : Prop :=
  ∃ column, q.multiColumn runtime segment dim = some column ∧ (column.rowOrdinals p.rowIdx).getD [] = []

/-- The keys of a value, one for every element; nothing where it is rejected. -/
def valueKeys (dim : DimensionSpec) : Json → List (Option GroupKey)
  | .array [] => [some .null]
  | .array elems => elems.map (dim.applyTyped runtime)
  | scalar => [dim.applyTyped runtime scalar]

/-- The keys of the elements of a row. An empty row has the key null. -/
def elementKeys (dim : DimensionSpec) (column : StringMultiColumnData DruidBitmap) : List ℕ → List (Option GroupKey)
  | [] => [some .null]
  | ords => ords.map fun ord => dim.applyTyped runtime (renderElement runtime.legacy column ord)

/-- The transformed keys of a cell, one for every position. -/
def positions (p : PassingRow) (dim : DimensionSpec) : List (Option GroupKey) :=
  match q.multiColumn runtime segment dim with
  | some column => elementKeys runtime dim column ((column.rowOrdinals p.rowIdx).getD [])
  | none => valueKeys runtime dim ((p.row dim.inputName).getD .null)

/-- How many tuples of positions have the keys. -/
def multiplicity (p : PassingRow) (keys : List GroupKey) : ℕ :=
  (tuples (q.active.map (q.positions runtime segment p))).count (keys.map some)

/-- A group is fed every row of its bucket, in order, as often as its keys are
those of a tuple of positions. -/
def owed (id : GroupId) : List PassingRow :=
  (q.passing runtime calendar segment).flatMap fun p =>
    if p.bucketKey = id.1 then List.replicate (q.multiplicity runtime segment p id.2) p else []

/-- Every row that passes has a dimension without a key, or no empty cell under a
spec that changes null. -/
def NullsKept : Prop :=
  ∀ p ∈ q.passing runtime calendar segment, (∃ dim ∈ q.active, ∀ key ∈ q.positions runtime segment p dim, key = none) ∨
    ∀ dim ∈ q.active, q.NullCell runtime segment p dim → dim.keepsNull runtime.legacy = true

variable {p : PassingRow} {dim : DimensionSpec}

/-- A row with all elements of a dimension rejected feeds no group. -/
theorem multiplicity_rejected (hdim : dim ∈ q.active)
    (h : ∀ key ∈ q.positions runtime segment p dim, key = none) (keys : List GroupKey) : q.multiplicity runtime segment p keys = 0 := by
  have hnil : (q.positions runtime segment p dim).reduceOption = [] := by
    refine eq_nil_iff_forall_not_mem.2 fun key hkey => ?_
    cases h _ (reduceOption_mem_iff.1 hkey)
  rw [multiplicity, count_tuples_some, map_map, tuples_eq_nil (mem_map.2 ⟨dim, hdim, hnil⟩)]
  rfl

/-! ## Cells -/

theorem row_of_passingRows {rows : List (Int64 × ℕ)} {row : JsonMap}
    (hp : p ∈ q.passingRows runtime calendar segment rows row) {name : String} (hname : name ∉ q.virtualColumns.names) {value : Json}
    (h : segment.row p.rowIdx name = some value) : p.row name = some value := by
  induction rows generalizing row with
  | nil => cases hp
  | cons r rows ih =>
    obtain ⟨ts, rowIdx⟩ := r
    simp only [passingRows] at hp
    split_ifs at hp
    · rcases mem_cons.1 hp with rfl | hp
      · have hkept := q.virtualColumns.kept (TimeseriesQuery.updateRow (segment.row rowIdx) row) name hname
        refine hkept.trans ?_
        simp only [TimeseriesQuery.updateRow, h]
      · exact ih hp
    · exact ih hp
    · exact ih hp

variable {runtime calendar q segment}

/-- The row map has the cell of a multi-value column. -/
theorem cell_of_passing (hp : p ∈ q.passing runtime calendar segment)
    {column : StringMultiColumnData DruidBitmap} (hcolumn : q.multiColumn runtime segment dim = some column) :
    p.row dim.inputName = some (renderMulti runtime.legacy column p.rowIdx) := by
  unfold multiColumn at hcolumn
  split_ifs at hcolumn with hname
  exact row_of_passingRows runtime calendar q segment hp hname (segment.rendered _ _ hcolumn _)

theorem reduceOption_map {α β : Type} (f : α → Option β) (l : List α) : (l.map f).reduceOption = l.filterMap f := by
  rw [List.reduceOption, filterMap_map]
  rfl

/-- The code's keys of a value are those that are not rejected. -/
theorem explodeDimValue_eq (dim : DimensionSpec) (value : Json) : explodeDimValue runtime dim value = (valueKeys runtime dim value).reduceOption := by
  have hone : ∀ value, (dim.applyTyped runtime value).toList = [dim.applyTyped runtime value].reduceOption := fun value => by
    cases dim.applyTyped runtime value <;> rfl
  cases value with
  | array elems =>
    cases elems with
    | nil => rfl
    | cons elem elems => exact (reduceOption_map _ _).symm
  | null => exact hone _
  | bool | number | string | object => exact hone _

theorem valueKeys_renderElement (dim : DimensionSpec) (column : StringMultiColumnData DruidBitmap) (ord : ℕ) :
    valueKeys runtime dim (renderElement runtime.legacy column ord) = [dim.applyTyped runtime (renderElement runtime.legacy column ord)] := by
  unfold renderElement
  split
  · split_ifs <;> rfl
  · rfl

theorem valueKeys_renderOrdinals (dim : DimensionSpec) (column : StringMultiColumnData DruidBitmap) {ords : List ℕ} (h : ords ≠ []) :
    valueKeys runtime dim (renderOrdinals runtime.legacy column ords) = elementKeys runtime dim column ords := by
  match ords, h with
  | [ord], _ => exact valueKeys_renderElement dim column ord
  | ord :: ord' :: ords, _ => simp [renderOrdinals, valueKeys, elementKeys]

/-- What a cell without elements gives the code. -/
theorem dimKeys_of_null (hp : p ∈ q.passing runtime calendar segment)
    (hnull : q.NullCell runtime segment p dim) :
    dimKeys runtime p dim = (dim.applyTyped runtime .null).toList ∧ q.positions runtime segment p dim = [some .null] := by
  obtain ⟨column, hcolumn, hords⟩ := hnull
  constructor
  · rw [dimKeys, cell_of_passing hp hcolumn, renderMulti, hords]
    rfl
  · simp only [positions, hcolumn, hords, elementKeys]

/-- Every other cell gives the keys of its positions. -/
theorem dimKeys_of_not_null (hp : p ∈ q.passing runtime calendar segment)
    (hnull : ¬ q.NullCell runtime segment p dim) : dimKeys runtime p dim = (q.positions runtime segment p dim).reduceOption := by
  unfold positions dimKeys
  rw [explodeDimValue_eq]
  cases hcolumn : q.multiColumn runtime segment dim with
  | some column =>
    have hne : (column.rowOrdinals p.rowIdx).getD [] ≠ [] := fun h => hnull ⟨column, hcolumn, h⟩
    rw [cell_of_passing hp hcolumn, Option.getD_some, renderMulti, valueKeys_renderOrdinals dim column hne]
  | none => rfl

/-! ## Rows that are fed as they are to be -/

/-- A row is fed to every group as often as it is to be, exactly if it has a
dimension without a key, or no empty cell under a spec that changes null. -/
theorem count_rowTuples_iff (hp : p ∈ q.passing runtime calendar segment) :
    (∀ keys, (q.rowTuples runtime p).count keys = q.multiplicity runtime segment p keys) ↔
      (∃ dim ∈ q.active, ∀ key ∈ q.positions runtime segment p dim, key = none) ∨
        ∀ dim ∈ q.active, q.NullCell runtime segment p dim → dim.keepsNull runtime.legacy = true := by
  have hmult : ∀ keys, q.multiplicity runtime segment p keys =
      (tuples (q.active.map fun dim => (q.positions runtime segment p dim).reduceOption)).count keys := fun keys => by
    rw [multiplicity, count_tuples_some, map_map]
    rfl
  constructor
  · intro hcount
    by_contra hcon
    obtain ⟨hkeys, hlost⟩ := not_or.1 hcon
    push Not at hkeys hlost
    obtain ⟨dim, hdim, hnull, hchanged⟩ := hlost
    -- a key of each dimension, which is null for the empty cell
    let choice : DimensionSpec → GroupKey := fun dim => ((q.positions runtime segment p dim).reduceOption.head?).getD .null
    have hchoice : ∀ dim ∈ q.active, choice dim ∈ (q.positions runtime segment p dim).reduceOption := by
      intro dim hdim
      obtain ⟨key, hkey, hsome⟩ := hkeys dim hdim
      obtain ⟨k, rfl⟩ := Option.ne_none_iff_exists'.1 hsome
      obtain ⟨k', hk'⟩ := Option.ne_none_iff_exists'.1
        (fun h => ne_nil_of_mem (reduceOption_mem_iff.2 hkey) (head?_eq_none_iff.1 h))
      have hhead : choice dim = k' := by simp only [choice, hk', Option.getD_some]
      exact hhead ▸ mem_of_mem_head? hk'
    have hmem : q.active.map choice ∈ q.rowTuples runtime p := by
      rw [← count_pos_iff, hcount, hmult, count_pos_iff]
      exact mem_tuples_map.2 hchoice
    obtain ⟨hcode, hpos⟩ := dimKeys_of_null hp hnull
    have hnullKey : choice dim = .null := by simp only [choice, hpos]; rfl
    have hin := mem_tuples_map.1 hmem dim hdim
    rw [hcode, hnullKey, Option.mem_toList] at hin
    exact hchanged ((applyTyped_null_iff runtime dim).1 hin)
  · rintro (⟨dim, hdim, hrejected⟩ | hkept) keys
    · have hnot : ¬ q.NullCell runtime segment p dim := fun hnull => by
        have hpos := (dimKeys_of_null hp hnull).2
        cases hrejected (some .null) (hpos ▸ mem_singleton_self _)
      have hnil : dimKeys runtime p dim = [] := by
        rw [dimKeys_of_not_null hp hnot]
        refine eq_nil_iff_forall_not_mem.2 fun key hkey => ?_
        cases hrejected _ (reduceOption_mem_iff.1 hkey)
      rw [multiplicity_rejected runtime q segment hdim hrejected, rowTuples, tuples_eq_nil (mem_map.2 ⟨dim, hdim, hnil⟩)]
      rfl
    · rw [hmult, rowTuples]
      congr 2
      refine map_congr_left fun dim hdim => ?_
      by_cases hnull : q.NullCell runtime segment p dim
      · obtain ⟨hcode, hpos⟩ := dimKeys_of_null hp hnull
        rw [hcode, hpos, (applyTyped_null_iff runtime dim).2 (hkept dim hdim hnull)]
        rfl
      · exact dimKeys_of_not_null hp hnull

end

/-! ## Groups -/

/-- The state of a group that was fed rows; a group is there once it is fed. -/
def stateOf : List PassingRow → Option σ
  | [] => none
  | p :: ps => some ((p :: ps).foldl feed create)

/-- A log is a state from which the rows are read back. -/
theorem stateOf_log_injective : Function.Injective (stateOf [] fun (log : List PassingRow) p => log ++ [p]) := by
  have hlog : ∀ (ps log : List PassingRow), ps.foldl (fun log p => log ++ [p]) log = log ++ ps := by
    intro ps
    induction ps with
    | nil => exact fun log => (append_nil log).symm
    | cons p ps ih => exact fun log => by rw [foldl_cons, ih, append_assoc, singleton_append]
  intro ps ps' h
  cases ps with
  | nil => cases ps' with
    | nil => rfl
    | cons p' ps' => cases h
  | cons p ps => cases ps' with
    | nil => cases h
    | cons p' ps' => simpa [stateOf, hlog] using h

/-- The rows a group is fed. -/
def fed (segment : MultiSegment runtime.legacy) (id : GroupId) : List PassingRow :=
  ((q.feeds runtime (q.passing runtime calendar segment)).filter (groupOf · = id)).map (·.1)

theorem lookup_groups (segment : MultiSegment runtime.legacy) (id : GroupId) :
    (q.groups runtime calendar create feed segment).lookup id = stateOf create feed (q.fed runtime calendar segment id) := by
  rw [groups, lookup_groupFold_empty, fed]
  cases (q.feeds runtime (q.passing runtime calendar segment)).filter (groupOf · = id) with
  | nil => rfl
  | cons e es => exact congrArg some (foldl_map (f := fun e : PassingRow × List GroupKey => e.1) (g := feed) (l := e :: es)).symm

theorem map_fst_filter (id : GroupId) (keyses : List (List GroupKey)) :
    ((keyses.map fun keys => (p, keys)).filter (groupOf · = id)).map (·.1) =
      List.replicate (if p.bucketKey = id.1 then keyses.count id.2 else 0) p := by
  obtain ⟨bucketKey, wanted⟩ := id
  induction keyses with
  | nil => simp
  | cons keys keyses ih =>
    by_cases hbucket : p.bucketKey = bucketKey <;> by_cases hkeys : keys = wanted <;>
      simp [groupOf, hbucket, hkeys, replicate_succ] at ih ⊢ <;> exact ih

theorem fed_eq (segment : MultiSegment runtime.legacy) (id : GroupId) :
    q.fed runtime calendar segment id = (q.passing runtime calendar segment).flatMap fun p =>
      List.replicate (if p.bucketKey = id.1 then (q.rowTuples runtime p).count id.2 else 0) p := by
  rw [fed, feeds, filter_flatMap, map_flatMap]
  exact flatMap_congr fun p _ => map_fst_filter p id _

theorem owed_eq (segment : MultiSegment runtime.legacy) (id : GroupId) :
    q.owed runtime calendar segment id = (q.passing runtime calendar segment).flatMap fun p =>
      List.replicate (if p.bucketKey = id.1 then q.multiplicity runtime segment p id.2 else 0) p := by
  refine flatMap_congr fun p _ => ?_
  split_ifs <;> rfl

/-- No row passes twice. -/
theorem nodup_rowIdx (segment : MultiSegment runtime.legacy) : ((q.passing runtime calendar segment).map (·.rowIdx)).Nodup := by
  have hsub : ∀ rows row, List.Sublist ((q.passingRows runtime calendar segment rows row).map (·.rowIdx)) (rows.map (·.2)) := by
    intro rows
    induction rows with
    | nil => exact fun _ => List.Sublist.slnil
    | cons r rows ih =>
      intro row
      simp only [passingRows, map_cons]
      split_ifs
      · exact (ih _).cons_cons _
      · exact (ih _).cons _
      · exact (ih _).cons _
  have hidx : (segment.timestamps.zipIdx.map (·.2)).Nodup := by
    rw [zipIdx_map_snd]
    exact nodup_range'
  exact (hidx.sublist ((take_sublist _ _).map _)).sublist (hsub _ _)

/-- Repeated rows tell how often each is repeated. -/
theorem repeated_inj {ps : List PassingRow} (hps : (ps.map (·.rowIdx)).Nodup) {n m : PassingRow → ℕ}
    (h : (ps.flatMap fun p => List.replicate (n p) p) = ps.flatMap fun p => List.replicate (m p) p) : ∀ p ∈ ps, n p = m p := by
  have hcount : ∀ (n : PassingRow → ℕ), ∀ p ∈ ps,
      (ps.flatMap fun p => List.replicate (n p) p).countP (·.rowIdx = p.rowIdx) = n p := by
    clear h
    intro n
    induction ps with
    | nil => simp
    | cons p' ps ih =>
      obtain ⟨hnot, hps⟩ := nodup_cons.1 hps
      intro p hp
      rw [flatMap_cons, countP_append, countP_replicate]
      rcases mem_cons.1 hp with rfl | hp
      · have hnone : (ps.flatMap fun p => List.replicate (n p) p).countP (·.rowIdx = p.rowIdx) = 0 := by
          refine countP_eq_zero.2 fun r hr hidx => hnot ?_
          obtain ⟨p'', hp'', hr⟩ := mem_flatMap.1 hr
          obtain rfl := (mem_replicate.1 hr).2
          exact mem_map.2 ⟨_, hp'', of_decide_eq_true hidx⟩
        simp [hnone]
      · have hne : p'.rowIdx ≠ p.rowIdx := fun heq => hnot (mem_map.2 ⟨p, hp, heq.symm⟩)
        simp [hne, ih hps p hp]
  intro p hp
  rw [← hcount n p hp, h, hcount m p hp]

theorem fed_eq_owed_iff (segment : MultiSegment runtime.legacy) :
    (∀ id, q.fed runtime calendar segment id = q.owed runtime calendar segment id) ↔ q.NullsKept runtime calendar segment := by
  simp only [fed_eq, owed_eq]
  constructor
  · intro h p hp
    refine (count_rowTuples_iff hp).1 fun keys => ?_
    have hcount := repeated_inj (q.nodup_rowIdx runtime calendar segment) (h (p.bucketKey, keys)) p hp
    simpa using hcount
  · intro h id
    refine flatMap_congr fun p hp => ?_
    rw [(count_rowTuples_iff hp).2 (h p hp)]

/-- The loop ends whatever is fed. If the groups fit, every group is fed what it
is owed, exactly if no empty cell is under a spec that changes null, but for rows
that feed no group; if not, the query fails. -/
theorem accumulate_feeds_iff (segment : MultiSegment runtime.legacy) :
    ∃ enough, ∀ fuel ≥ enough,
      if q.maxKeys = 0 ∨ (q.groupIds runtime calendar segment).length ≤ q.maxKeys then
        (∀ (σ : Type) (create : σ) (feed : σ → PassingRow → σ), ∃ groups,
          q.accumulate runtime calendar create feed segment fuel = some (.ok groups)) ∧
        ((∀ (σ : Type) (create : σ) (feed : σ → PassingRow → σ) (groups : HashMap GroupId σ),
          q.accumulate runtime calendar create feed segment fuel = some (.ok groups) →
            ∀ id, groups.lookup id = stateOf create feed (q.owed runtime calendar segment id)) ↔ q.NullsKept runtime calendar segment)
      else ∀ (σ : Type) (create : σ) (feed : σ → PassingRow → σ),
        q.accumulate runtime calendar create feed segment fuel = some (.error (q.overMax (q.maxKeys + 1))) := by
  refine ⟨((q.passing runtime calendar segment).map fun p => (q.rowTuples runtime p).length).sum, fun fuel hfuel => ?_⟩
  have hlengths : ∀ p ∈ q.passing runtime calendar segment, (q.rowTuples runtime p).length ≤ fuel := fun p hp =>
    (single_le_sum (fun _ _ => Nat.zero_le _) _ (mem_map_of_mem hp)).trans hfuel
  have hrun := fun (σ : Type) (create : σ) (feed : σ → PassingRow → σ) => accumulate_eq runtime calendar q create feed segment hlengths
  split_ifs with hfit
  · simp only [if_pos hfit] at hrun
    refine ⟨fun σ create feed => ⟨_, hrun σ create feed⟩, ?_⟩
    rw [← fed_eq_owed_iff]
    constructor
    · intro h id
      have hlog := h _ [] (fun log p => log ++ [p]) _ (hrun _ _ _) id
      rw [lookup_groups] at hlog
      exact stateOf_log_injective hlog
    · intro h σ create feed groups hgroups id
      obtain rfl := Except.ok.inj (Option.some.inj ((hrun σ create feed).symm.trans hgroups))
      rw [lookup_groups, h]
  · simp only [if_neg hfit] at hrun
    exact hrun

/-! ## An empty cell under a filter -/

/-- One row without tags. -/
def untagged : StringMultiColumnData DruidBitmap := ⟨[], [0, 0], [], [{0}]⟩

def untaggedSegment : MultiSegment false where
  numRows := 1
  dimensions := ["tags"]
  metrics := []
  timestamps := [0]
  row rowIdx name :=
    if name = "__time" then some ((([0] : List Int64)[rowIdx]?.map Json.ofI64).getD .null)
    else if name = "tags" then some (renderMulti false untagged rowIdx) else none
  timed rowIdx ts h := by simp [h]
  multi name := if name = "tags" then some untagged else none
  rendered name column h rowIdx := by
    split_ifs at h with hname
    obtain rfl := Option.some.inj h
    simp [hname]

def plainRuntime : DimRuntime where
  legacy := false
  extract _ raw := some raw
  isMatch pattern text := pattern = text
  display _ := ⟨[], Eq.refl true⟩
  parseDruidLong s := parseLong s.bytes
  parseF32 s := parseF64 s.bytes
  toF32 x := x
  longToF32 n := .ofInt n.toInt

/-- A list of tags to keep, without filter, intervals and virtual columns. -/
def keepTagged : MultiValueGroupBy where
  granularity := .full .none
  intervals := []
  filter := none
  virtualColumns := .none
  active := [.listFiltered (.default "tags" "tags" .string) [⟨[0x61], Eq.refl true⟩] true]
  maxKeys := 0

/-- Nothing is grouped by month, quarter or year. -/
def noCalendar : Calendar := ⟨fun _ => 0, fun _ => 0, fun _ => 0⟩

/-- The row without tags is owed to the group of null, which is not there. -/
theorem untagged_not_counted :
    ∃ groups, keepTagged.accumulate plainRuntime noCalendar 0 (fun (n : ℕ) _ => n + 1) untaggedSegment 1 = some (.ok groups) ∧
      groups.lookup (0, [.null]) = none ∧
      stateOf 0 (fun (n : ℕ) _ => n + 1) (keepTagged.owed plainRuntime noCalendar untaggedSegment (0, [.null])) = some 1 :=
  ⟨∅, rfl, rfl, rfl⟩

end MultiValueGroupBy

end FerroDruid.Query
