import FerroDruid.Query.Scan
import Mathlib.Data.List.Perm.Subperm
/-!
# Scans of many segments

How the broker of `ferrodruid-broker/src/lib.rs` fans a scan out to the segments and
merges what they return: `fan_out_query`, `merge_scan` and `execute_local`.
-/

namespace FerroDruid.Broker

open Lib Query List

/-- A time-ordered scan has `__time` in its rows, or gets it for the merge. -/
def fanOutScan (q : ScanQuery) : ScanQuery × Bool :=
  match q.columns with
  | some cols =>
    if (q.order = some "ascending" ∨ q.order = some "descending") ∧ cols ≠ [] ∧ "__time" ∉ cols then
      ({ q with columns := some (cols ++ ["__time"]) }, true)
    else (q, false)
  | none => (q, false)

/-! ## Merging -/

/-- The columns that are new, in the order of their arrival. -/
def unionColumns (allColumns cols : List String) : List String :=
  cols.foldl (fun all col => if col ∈ all then all else all ++ [col]) allColumns

/-- The loop over the partial results; an unordered scan stops at its limit. -/
def mergeScanLoop (cap : Option ℕ) : List ScanResult → List String → List JsonMap → List String × List JsonMap
  | [], allColumns, allEvents => (allColumns, allEvents)
  | scan :: partials, allColumns, allEvents =>
    let allColumns := unionColumns allColumns scan.columns
    match cap with
    | some lim =>
      if lim < allEvents.length + scan.events.length then (allColumns, allEvents ++ scan.events.take (lim - allEvents.length))
      else mergeScanLoop cap partials allColumns (allEvents ++ scan.events)
    | none => mergeScanLoop cap partials allColumns (allEvents ++ scan.events)

def eventTime (event : JsonMap) : Option Int64 := (event "__time").bind Json.asI64

/-- An event without a time is before all others. -/
def timeBefore : Option Int64 → Option Int64 → Bool
  | none, _ => true
  | some _, none => false
  | some a, some b => a ≤ b

def eventBefore (order : Option String) (a b : JsonMap) : Bool :=
  if order = some "descending" then timeBefore (eventTime b) (eventTime a) else timeBefore (eventTime a) (eventTime b)

def timeOrdered (order : Option String) : Bool := order = some "ascending" ∨ order = some "descending"

def mergeScan (partials : List ScanResult) (limit : Option ℕ) (order : Option String) : ScanResult :=
  let (allColumns, allEvents) := mergeScanLoop (if timeOrdered order then none else limit) partials [] []
  let allEvents := if timeOrdered order then allEvents.insertionSort fun a b => eventBefore order a b else allEvents
  ⟨none, allColumns, match limit with | some lim => allEvents.take lim | none => allEvents⟩

/-- A single partial result is the result. -/
def mergeScanResults (q : ScanQuery) (partials : List ScanResult) : ScanResult :=
  match partials with
  | [] => ⟨none, [], []⟩
  | [partial_] => partial_
  | partials => mergeScan partials q.limit q.order

/-! ## A query -/

section

variable (parseIsoMillis : String → Option Int64)

/-- The merged result of the segments, in the order of their ids. -/
def gatherScan (q : ScanQuery) (segments : List SegmentData) : Except DruidError ScanResult := do
  let partials ← segments.mapM ((fanOutScan q).1.execute parseIsoMillis)
  .ok (mergeScanResults q partials)

end

/-! ## Pages of a gathered scan

A segment skips the first `offset` of its own rows, and the merge skips nothing. So
a gathered scan is the page of all rows only where one segment has all rows up to
a time, or the limit is reached before the skipped rows are missed. -/

open ScanQuery

variable {parseIsoMillis : String → Option Int64} {q : ScanQuery} {virtualColumns : VirtualColumns} {intervals : List (Int64 × Int64)}
  {segment : SegmentData} {segments : List SegmentData} {result : ScanResult}

/-- The rows of a segment that match, with their times; a malformed query has none. -/
def matchingRows (parseIsoMillis : String → Option Int64) (q : ScanQuery) (segment : SegmentData) : List (Int64 × JsonMap) :=
  match q.virtualColumns, parseIntervals parseIsoMillis q.intervals with
  | .ok virtualColumns, .ok intervals =>
    ((segment.timestamps.zipIdx.take segment.numRows).filter fun row => q.accepts virtualColumns segment intervals row.2 row.1).map
      fun row => (row.1, q.event virtualColumns segment row.2)
  | _, _ => []

/-- The order of rows with their times. -/
def rowKey (order : Option String) (row : Int64 × JsonMap) : ℤ := timeKey order row.1

/-- The rows of an arrangement that are not skipped, up to the limit. -/
def page (q : ScanQuery) (arranged : List (Int64 × JsonMap)) : List (Int64 × JsonMap) := takeLimit q.limit (arranged.drop (q.offset.getD 0))

/-- The events are a page of all rows in time order, rows of one time in any order. -/
def IsPage (q : ScanQuery) (rows : List (Int64 × JsonMap)) (events : List JsonMap) : Prop :=
  ∃ arranged : List (Int64 × JsonMap), arranged.Perm rows ∧ (arranged.map (rowKey q.order)).Pairwise (· ≤ ·) ∧
    events = (page q arranged).map (·.2)

/-! ## One segment -/

theorem collectRows_none (rows : List (Int64 × ℕ)) (rowIndices : List ℕ) :
    q.collectRows virtualColumns segment intervals none rows rowIndices =
      rowIndices ++ (rows.filter fun row => q.accepts virtualColumns segment intervals row.2 row.1).map (·.2) := by
  induction rows generalizing rowIndices with
  | nil => simp [collectRows]
  | cons row rows ih =>
    obtain ⟨ts, rowIdx⟩ := row
    by_cases haccept : q.accepts virtualColumns segment intervals rowIdx ts
    · simp [collectRows, haccept, ih]
    · simp [collectRows, haccept, ih]

variable (rowIndices : List ℕ)

theorem applyOffset_eq : q.applyOffset rowIndices = rowIndices.drop (q.offset.getD 0) := by
  unfold applyOffset
  simp only
  split_ifs with hsome hall
  · rfl
  · exact (drop_eq_nil_of_le hall).symm
  · obtain hzero : q.offset.getD 0 = 0 := by omega
    rw [hzero, drop_zero]

theorem applyLimit_eq : q.applyLimit rowIndices = takeLimit q.limit rowIndices := by
  unfold applyLimit
  cases q.limit with
  | none => exact takeLimit_none.symm
  | some limit => rfl

theorem timestampAt_of_mem {row : Int64 × ℕ} (h : row ∈ segment.timestamps.zipIdx.take segment.numRows) :
    timestampAt segment row.2 = row.1 := by
  rw [timestampAt, mem_zipIdx_iff_getElem?.1 (mem_of_mem_take h), Option.getD_some]

theorem map_page {β : Type} (f : Int64 × JsonMap → β) (rows : List (Int64 × JsonMap)) :
    (page q rows).map f = takeLimit q.limit ((rows.map f).drop (q.offset.getD 0)) := by
  rw [page, map_takeLimit, map_drop]

/-- What a segment returns is a page of its own rows. -/
theorem execute_events (hsorted : q.orderIsTimeSorted = true) (hok : q.execute parseIsoMillis segment = .ok result) :
    result.events = (page q (sortBy (rowKey q.order) (matchingRows parseIsoMillis q segment))).map (·.2) := by
  unfold execute at hok
  simp only [bind_eq_ok, Except.ok.injEq] at hok
  obtain ⟨-, -, -, -, -, -, virtualColumns, hvirtual, -, -, -, -, intervals, hintervals, rfl⟩ := hok
  have hcutoff : q.earlyCutoff = none := by rw [earlyCutoff, if_pos hsorted]
  rw [hcutoff, collectRows_none, nil_append, applyLimit_eq, applyOffset_eq, applyOrder, if_pos hsorted, matchingRows, hvirtual,
    hintervals, map_page]
  set rows := (segment.timestamps.zipIdx.take segment.numRows).filter fun row => q.accepts virtualColumns segment intervals row.2 row.1 with hrows
  have hindices : (sortBy (fun row : Int64 × ℕ => timeKey q.order row.1) rows).map (·.2) =
      sortBy (fun rowIdx => timeKey q.order (timestampAt segment rowIdx)) (rows.map (·.2)) :=
    map_sortBy fun row hrow => by rw [timestampAt_of_mem (mem_of_mem_filter hrow)]
  have hevents : (sortBy (fun row : Int64 × ℕ => timeKey q.order row.1) rows).map (fun row => (row.1, q.event virtualColumns segment row.2)) =
      sortBy (rowKey q.order) (rows.map fun row => (row.1, q.event virtualColumns segment row.2)) :=
    map_sortBy fun _ _ => rfl
  rw [← hindices, ← hevents, map_takeLimit, map_drop, map_map, map_map]
  rfl

/-! ## Times in events -/

/-- The place of an event in the order of its own time. -/
def eventKey (order : Option String) (event : JsonMap) : ℤ :=
  match (event "__time").bind Json.asI64 with
  | some ts => timeKey order ts
  | none => 0

/-- The event of a row has the time of the row. -/
def Timed (row : Int64 × JsonMap) : Prop := row.2 "__time" = some (.ofI64 row.1)

variable {row : Int64 × JsonMap}

theorem Timed.eventKey_eq (h : Timed row) (order : Option String) : eventKey order row.2 = rowKey order row := by
  have htime : (row.2 "__time").bind Json.asI64 = some row.1 := by rw [h, Option.bind_some, Json.asI64_ofI64]
  rw [eventKey, htime, rowKey]

theorem Timed.eventTime_eq (h : Timed row) : eventTime row.2 = some row.1 := by
  rw [eventTime, h, Option.bind_some, Json.asI64_ofI64]

theorem Timed.eventBefore_iff {a b : Int64 × JsonMap} (ha : Timed a) (hb : Timed b) (order : Option String) :
    eventBefore order a.2 b.2 = true ↔ rowKey order a ≤ rowKey order b := by
  unfold eventBefore rowKey timeKey
  rw [ha.eventTime_eq, hb.eventTime_eq]
  by_cases hdescending : order = some "descending"
  · simp [hdescending, timeBefore, Int64.le_iff_toInt_le]
  · simp [hdescending, timeBefore, Int64.le_iff_toInt_le]

theorem mem_foldl_insert {name : String} (names cols : List String) (h : name ∈ cols) :
    name ∈ names.foldl (fun cols name => if name ∈ cols then cols else cols ++ [name]) cols := by
  induction names generalizing cols with
  | nil => exact h
  | cons other names ih =>
    rw [foldl_cons]
    apply ih
    split_ifs
    · exact h
    · exact mem_append_left _ h

theorem time_mem_outputColumns (hordered : timeOrdered q.order = true) : "__time" ∈ (fanOutScan q).1.outputColumns virtualColumns segment := by
  have hall : "__time" ∈ allColumns virtualColumns segment := mem_foldl_insert _ _ (mem_cons_self ..)
  have hordered : q.order = some "ascending" ∨ q.order = some "descending" := by simpa [timeOrdered] using hordered
  unfold fanOutScan
  cases hcolumns : q.columns with
  | none => simpa [outputColumns, hcolumns] using hall
  | some cols =>
    by_cases hadd : cols ≠ [] ∧ "__time" ∉ cols
    · simp [outputColumns, hordered, hadd]
    · by_cases hnil : cols = []
      · simpa [outputColumns, hordered, hnil, hcolumns] using hall
      · have htime : "__time" ∈ cols := by
          by_contra hmem
          exact hadd ⟨hnil, hmem⟩
        simp [outputColumns, hordered, htime, hnil, hcolumns]

theorem event_time (hordered : timeOrdered q.order = true) {rowIdx : ℕ} {ts : Int64} (h : segment.timestamps[rowIdx]? = some ts) :
    (fanOutScan q).1.event virtualColumns segment rowIdx "__time" = some (.ofI64 ts) := by
  unfold event
  rw [if_pos (time_mem_outputColumns hordered), virtualColumns.kept _ _ virtualColumns.reserved, segment.timed rowIdx ts h]

theorem timed_of_mem_matchingRows (hordered : timeOrdered q.order = true)
    (h : row ∈ matchingRows parseIsoMillis (fanOutScan q).1 segment) : Timed row := by
  unfold matchingRows at h
  split at h
  · obtain ⟨⟨ts, rowIdx⟩, hmem, rfl⟩ := mem_map.1 h
    have htime := mem_zipIdx_iff_getElem?.1 (mem_of_mem_take (mem_of_mem_filter hmem))
    exact event_time hordered htime
  · exact absurd h not_mem_nil

/-! ## The gathered pages -/

/-- The pages of the segments in time order, limited again. -/
def gatheredRows (parseIsoMillis : String → Option Int64) (q : ScanQuery) (segments : List SegmentData) : List (Int64 × JsonMap) :=
  takeLimit q.limit (sortBy (rowKey q.order)
    (segments.map fun segment => page q (sortBy (rowKey q.order) (matchingRows parseIsoMillis (fanOutScan q).1 segment))).flatten)

theorem fanOutScan_order : (fanOutScan q).1.order = q.order := by
  unfold fanOutScan
  split
  · split_ifs <;> rfl
  · rfl

theorem page_fanOutScan : page (fanOutScan q).1 = page q := by
  unfold fanOutScan page
  split
  · split_ifs <;> rfl
  · rfl

theorem mergeScanLoop_none (partials : List ScanResult) (allColumns : List String) (allEvents : List JsonMap) :
    (mergeScanLoop none partials allColumns allEvents).2 = allEvents ++ (partials.map (·.events)).flatten := by
  induction partials generalizing allColumns allEvents with
  | nil => simp [mergeScanLoop]
  | cons scan partials ih => simp [mergeScanLoop, ih]

theorem mergeScan_events (partials : List ScanResult) (hordered : timeOrdered q.order = true) :
    (mergeScan partials q.limit q.order).events =
      takeLimit q.limit ((partials.map (·.events)).flatten.insertionSort fun a b => eventBefore q.order a b) := by
  unfold mergeScan
  simp only [hordered, if_true, mergeScanLoop_none, nil_append]
  cases q.limit with
  | none => exact takeLimit_none.symm
  | some limit => rfl

theorem mem_page {rows : List (Int64 × JsonMap)} (h : row ∈ page q (sortBy (rowKey q.order) rows)) : row ∈ rows :=
  (sortBy_perm _ _).subset (mem_of_mem_drop ((takeLimit_sublist _).subset h))

theorem sorted_page (rows : List (Int64 × JsonMap)) : ((page q (sortBy (rowKey q.order) rows)).map (rowKey q.order)).Pairwise (· ≤ ·) := by
  rw [map_page]
  exact ((sorted_sortBy _ rows).sublist (drop_sublist _ _)).sublist (takeLimit_sublist _)

/-- A single page is in order and not over the limit. -/
theorem takeLimit_page (rows : List (Int64 × JsonMap)) :
    takeLimit q.limit (sortBy (rowKey q.order) (page q (sortBy (rowKey q.order) rows))) = page q (sortBy (rowKey q.order) rows) := by
  rw [sortBy_eq_self (sorted_page rows)]
  exact takeLimit_takeLimit

variable (order : Option String)

theorem sortBy_events {rows : List (Int64 × JsonMap)} (h : ∀ row ∈ rows, Timed row) :
    (rows.map (·.2)).insertionSort (fun a b => eventBefore order a b) = (sortBy (rowKey order) rows).map (·.2) := by
  refine (map_insertionSort _ _ _ rows fun a ha b hb => ?_).symm
  exact ((h a ha).eventBefore_iff (h b hb) order).symm

theorem gatherScan_events (hordered : timeOrdered q.order = true) (hok : gatherScan parseIsoMillis q segments = .ok result) :
    result.events = (gatheredRows parseIsoMillis q segments).map (·.2) := by
  simp only [gatherScan, bind_eq_ok, Except.ok.injEq] at hok
  obtain ⟨partials, hpartials, rfl⟩ := hok
  have hsorted : (fanOutScan q).1.orderIsTimeSorted = true := by
    have : q.order = some "ascending" ∨ q.order = some "descending" := by simpa [timeOrdered] using hordered
    rw [orderIsTimeSorted, fanOutScan_order]
    rcases this with h | h <;> simp [h]
  set pages := segments.map fun segment => page q (sortBy (rowKey q.order) (matchingRows parseIsoMillis (fanOutScan q).1 segment)) with hpages
  have hevents : partials.map (·.events) = pages.map (·.map (·.2)) := by
    have := mapM_eq_ok.1 hpartials
    clear hpartials
    induction this with
    | nil => rfl
    | cons hscan _ ih =>
      have hone := execute_events hsorted hscan
      rw [page_fanOutScan, fanOutScan_order] at hone
      simpa [hpages, hone] using ih rfl
  have hflat : (partials.map (·.events)).flatten = pages.flatten.map (·.2) := by rw [hevents, map_flatten]
  have htimed : ∀ row ∈ pages.flatten, Timed row := by
    intro row hrow
    obtain ⟨rows, hrows, hrow⟩ := mem_flatten.1 hrow
    obtain ⟨segment, -, rfl⟩ := mem_map.1 hrows
    exact timed_of_mem_matchingRows hordered (mem_page hrow)
  unfold gatheredRows
  rw [map_takeLimit, ← sortBy_events q.order htimed, ← hflat]
  clear hevents
  match partials, hpartials with
  | [], _ =>
    change [] = takeLimit q.limit []
    simp [takeLimit]
  | [scan], hpartials =>
    obtain ⟨segment, rfl⟩ : ∃ segment, segments = [segment] :=
      length_eq_one_iff.1 (mapM_eq_ok.1 hpartials).length_eq
    have hflatten : pages.flatten = page q (sortBy (rowKey q.order) (matchingRows parseIsoMillis (fanOutScan q).1 segment)) := by simp [hpages]
    have hscan : scan.events = pages.flatten.map (·.2) := by simpa using hflat
    have hlist : (List.map (·.events) [scan]).flatten = scan.events := by simp
    rw [hlist, hscan, sortBy_events q.order htimed, ← map_takeLimit, hflatten, takeLimit_page, ← hflatten, ← hscan]
    rfl
  | first :: second :: rest, _ => exact mergeScan_events _ hordered

/-! ## Pages of all rows -/

/-- All rows that match, with what the fan-out asks of them. -/
def allRows (parseIsoMillis : String → Option Int64) (q : ScanQuery) (segments : List SegmentData) : List (Int64 × JsonMap) :=
  (segments.map (matchingRows parseIsoMillis (fanOutScan q).1)).flatten

/-- How many rows each segment has up to a time, in the order of the query. -/
def rowCounts (parseIsoMillis : String → Option Int64) (q : ScanQuery) (segments : List SegmentData) (t : ℤ) : List ℕ :=
  counts (segments.map fun segment => (matchingRows parseIsoMillis (fanOutScan q).1 segment).map (rowKey q.order)) t

/-- Up to every time nothing is skipped, or all is, or one segment has all rows, or
the limit is reached by what the segments have left. -/
def OffsetHarmless (parseIsoMillis : String → Option Int64) (q : ScanQuery) (segments : List SegmentData) : Prop :=
  let offset := q.offset.getD 0
  ∀ t, offset = 0 ∨ (rowCounts parseIsoMillis q segments t).sum ≤ offset ∨ (rowCounts parseIsoMillis q segments t).countP (0 < ·) ≤ 1 ∨
    ∃ limit ∈ q.limit, limit ≤ ((rowCounts parseIsoMillis q segments t).map (· - offset)).sum

theorem isPage_iff_keys {rows part : List (Int64 × JsonMap)} (hrows : ∀ row ∈ rows, Timed row) (hpart : part.Subperm rows) :
    IsPage q rows (part.map (·.2)) ↔
      part.map (rowKey q.order) = takeLimit q.limit (((sortBy (rowKey q.order) rows).map (rowKey q.order)).drop (q.offset.getD 0)) := by
  constructor
  · rintro ⟨arranged, hperm, hsorted, heq⟩
    have hkeys : arranged.map (rowKey q.order) = (sortBy (rowKey q.order) rows).map (rowKey q.order) :=
      eq_of_perm_sorted hsorted (sorted_sortBy _ _) ((hperm.trans (sortBy_perm _ rows).symm).map _)
    have htimed : ∀ l : List (Int64 × JsonMap), l ⊆ rows → (l.map (·.2)).map (eventKey q.order) = l.map (rowKey q.order) := fun l hl => by
      rw [map_map]
      exact map_congr_left fun row hrow => (hrows row (hl hrow)).eventKey_eq _
    have hpage : page q arranged ⊆ rows := fun row hrow => hperm.subset (mem_of_mem_drop ((takeLimit_sublist _).subset hrow))
    rw [← htimed part hpart.subset, heq, htimed _ hpage, map_page, hkeys]
  · intro hkeys
    obtain ⟨part', hpart', hsub⟩ := hpart
    obtain ⟨rest, hrest⟩ := hsub.exists_perm_append
    obtain ⟨arranged, hperm, hsorted, heq⟩ := exists_arrangement ((hpart'.symm.append_right rest).trans hrest.symm) hkeys
    refine ⟨arranged, hperm, hsorted, ?_⟩
    rw [heq, page, takeLimit, length_drop, length_drop, length_map, hperm.length_eq, (sortBy_perm _ _).length_eq]

theorem page_subperm (rows : List (Int64 × JsonMap)) : (page q (sortBy (rowKey q.order) rows)).Subperm rows :=
  ((takeLimit_sublist _).trans (drop_sublist _ _)).subperm.trans (sortBy_perm _ _).subperm

theorem gatheredRows_subperm : (gatheredRows parseIsoMillis q segments).Subperm (allRows parseIsoMillis q segments) := by
  refine (takeLimit_sublist _).subperm.trans ((sortBy_perm _ _).subperm.trans ?_)
  induction segments with
  | nil => exact .refl _
  | cons segment segments ih => exact List.Subperm.append (page_subperm _) ih

theorem map_rowKey_sortBy (rows : List (Int64 × JsonMap)) :
    (sortBy (rowKey order) rows).map (rowKey order) = sortBy id (rows.map (rowKey order)) := map_sortBy fun _ _ => rfl

theorem map_gatheredRows : (gatheredRows parseIsoMillis q segments).map (rowKey q.order) = takeLimit q.limit (sortBy id
    ((segments.map fun segment => takeLimit q.limit
      ((sortBy id ((matchingRows parseIsoMillis (fanOutScan q).1 segment).map (rowKey q.order))).drop (q.offset.getD 0))).flatten)) := by
  rw [gatheredRows, map_takeLimit, map_rowKey_sortBy, map_flatten, map_map]
  congr 4
  funext segment
  rw [Function.comp, map_page, map_rowKey_sortBy]

/-- A scan in time order that skips its first row. -/
def skipOne (limit : Option ℕ) : ScanQuery where
  intervals := []
  filter := none
  virtualColumns := .ok .none
  columns := none
  limit := limit
  offset := some 1
  order := some "ascending"
  resultFormat := none

end FerroDruid.Broker
