import FerroDruid.Lib.FloatText
import FerroDruid.Lib.Json
import FerroDruid.Overlord.Intervals
/-!
# What a replace overwrites

`parse_segment_granularity`, `replace_scope` and `plan_replace_victims` of
`ferrodruid-overlord/src/lib.rs`: a batch task that does not append overwrites
the buckets of its `segmentGranularity`, from that of its first row to that of
its last one.

An error is the place it comes from and what its message shows.
-/

namespace FerroDruid.Overlord

open Lib Calendar

/-! ## Granularities -/

inductive SegmentGranularity where
  | all
  | fixed (millis anchor : ℤ) (pos : 0 < millis)
  | month
  | quarter
  | year

inductive ReplaceError where
  | granularityName (name : Bytes)
  | granularityPeriod (period : Bytes)
  | granularityType (type : Bytes)
  | granularityNoPeriod
  | granularityShape (value : Json)
  | timestampRange (ts : Int64)
  | calendarRange (year month : ℤ)
  | segmentStart (id : String) (bound error : Bytes)
  | segmentStop (id : String) (bound error : Bytes)
  | spansBeyond (id : String) (start stop scopeStart scopeStop : Bytes)

def weekAnchorMillis : ℤ := -3 * millisPerDay

def granularityNames : List (String × SegmentGranularity) :=
  [("none", .fixed 1 0 (by decide)), ("second", .fixed 1000 0 (by decide)), ("minute", .fixed 60000 0 (by decide)),
    ("five_minute", .fixed 300000 0 (by decide)), ("ten_minute", .fixed 600000 0 (by decide)), ("fifteen_minute", .fixed 900000 0 (by decide)),
    ("thirty_minute", .fixed 1800000 0 (by decide)), ("hour", .fixed 3600000 0 (by decide)), ("six_hour", .fixed 21600000 0 (by decide)),
    ("eight_hour", .fixed 28800000 0 (by decide)), ("day", .fixed millisPerDay 0 (by decide)),
    ("week", .fixed (7 * millisPerDay) weekAnchorMillis (by decide)), ("month", .month), ("quarter", .quarter), ("year", .year), ("all", .all)]

def segmentGranularityFromName (s : Bytes) : Except ReplaceError SegmentGranularity :=
  match granularityNames.find? fun entry => ascii entry.1 = s.map lowerAscii with
  | some entry => .ok entry.2
  | none => .error (.granularityName (s.map lowerAscii))

def upperAscii (b : UInt8) : UInt8 := if 0x61 ≤ b ∧ b ≤ 0x7A then b - 0x20 else b

/-- Periods by the names they stand for. -/
def granularityPeriods : List (String × String) :=
  [("PT1S", "second"), ("PT1M", "minute"), ("PT5M", "five_minute"), ("PT10M", "ten_minute"), ("PT15M", "fifteen_minute"), ("PT30M", "thirty_minute"),
    ("PT1H", "hour"), ("PT6H", "six_hour"), ("PT8H", "eight_hour"), ("P1D", "day"), ("P1W", "week"),
      ("P7D", "week"), ("P1M", "month"), ("P3M", "quarter"),
    ("P1Y", "year")]

def segmentGranularityFromPeriod (p : Bytes) : Except ReplaceError SegmentGranularity :=
  match granularityPeriods.find? fun entry => ascii entry.1 = p.map upperAscii with
  | some entry => segmentGranularityFromName (ascii entry.2)
  | none => .error (.granularityPeriod (p.map upperAscii))

def daily : SegmentGranularity := .fixed millisPerDay 0 (by decide)

def parseSegmentGranularity : Option Json → Except ReplaceError SegmentGranularity
  | none | some .null => .ok daily
  | some (.string s) => segmentGranularityFromName s.bytes
  | some (.object fields) =>
    let gtype := ((Json.get fields (.ofAscii (ascii "type") (by decide))).bind Json.asStr).elim [] Utf8.bytes
    if gtype = ascii "all" then .ok .all
    else if gtype = ascii "period" then
      match (Json.get fields (.ofAscii (ascii "period") (by decide))).bind Json.asStr with
      | some period => segmentGranularityFromPeriod period.bytes
      | none => .error .granularityNoPeriod
    else .error (.granularityType gtype)
  | some other => .error (.granularityShape other)

/-! ## The window -/

def clampMillisI64 (v : ℤ) : Int64 := Int64.ofInt (max (-2 ^ 63) (min v (2 ^ 63 - 1)))

variable (chrono : Chrono)

/-- Months from 0 on. -/
def yearMonth0 (ts : Int64) : Except ReplaceError (ℤ × ℤ) :=
  match chrono.fields ts with
  | some f => .ok (f.year, f.month - 1)
  | none => .error (.timestampRange ts)

def ymStartMillis (year month0 : ℤ) : Except ReplaceError Int64 :=
  match chrono.midnight (year + month0 / 12) (month0 % 12 + 1) with
  | some t => .ok t
  | none => .error (.calendarRange (year + month0 / 12) (month0 % 12 + 1))

def replaceScope (granularity : SegmentGranularity) (minTs maxTs : Int64) : Except ReplaceError (Int64 × Int64) :=
  match granularity with
  | .all => .ok (.minValue, .maxValue)
  | .fixed millis anchor _ =>
    let bucketStart := fun t : Int64 => anchor + (t.toInt - anchor) / millis * millis
    .ok (clampMillisI64 (bucketStart minTs), clampMillisI64 (bucketStart maxTs + millis))
  | .month => do
    let (ys, ms) ← yearMonth0 chrono minTs
    let (ye, me) ← yearMonth0 chrono maxTs
    .ok (← ymStartMillis chrono ys ms, ← ymStartMillis chrono ye (me + 1))
  | .quarter => do
    let (ys, ms) ← yearMonth0 chrono minTs
    let (ye, me) ← yearMonth0 chrono maxTs
    .ok (← ymStartMillis chrono ys (ms / 3 * 3), ← ymStartMillis chrono ye (me / 3 * 3 + 3))
  | .year => do
    let (ys, _) ← yearMonth0 chrono minTs
    let (ye, _) ← yearMonth0 chrono maxTs
    .ok (← ymStartMillis chrono ys 0, ← ymStartMillis chrono ye 12)

/-! ## The victims -/

/-- A used segment, without what no code here reads. -/
structure SegmentMetadataRow where
  id : String
  dataSource : String
  start : Bytes
  stop : Bytes
  deriving DecidableEq

/-- The loop over the used segments: one that reaches out of the window is an error. -/
def planVictims (scope : Int64 × Int64) (newSegmentId : String) : List SegmentMetadataRow → Except ReplaceError (List SegmentMetadataRow)
  | [] => .ok []
  | seg :: rest =>
    if seg.id = newSegmentId then planVictims scope newSegmentId rest
    else
      match parseIntervalBoundMillis chrono seg.start with
      | .error e => .error (.segmentStart seg.id seg.start e)
      | .ok segStart =>
        match parseIntervalBoundMillis chrono seg.stop with
        | .error e => .error (.segmentStop seg.id seg.stop e)
        | .ok segStop =>
          if scope.2 ≤ segStart ∨ segStop ≤ scope.1 then planVictims scope newSegmentId rest
          else if segStart < scope.1 ∨ scope.2 < segStop then
            .error (.spansBeyond seg.id seg.start seg.stop (formatEpochMillisIso chrono scope.1) (formatEpochMillisIso chrono scope.2))
          else (planVictims scope newSegmentId rest).map (seg :: ·)

/-- `usedSegments` are those of all data sources. -/
def planReplaceVictims (usedSegments : List SegmentMetadataRow) (dsName : String) (segmentGranularity : Option Json) (dataBounds : Int64 × Int64)
    (newSegmentId : String) : Except ReplaceError (List SegmentMetadataRow) := do
  let granularity ← parseSegmentGranularity segmentGranularity
  let scope ← replaceScope chrono granularity dataBounds.1 dataBounds.2
  planVictims chrono scope newSegmentId (usedSegments.filter (·.dataSource = dsName))

/-! ## Unreadable segments -/

/-- The bound of a stored segment could not be read. -/
def ReplaceError.IsUnreadable : ReplaceError → Prop
  | segmentStart _ _ _ | segmentStop _ _ _ => True
  | _ => False

/-- No such error comes out. -/
def Readable {α : Type} (x : Except ReplaceError α) : Prop := ∀ e, x = .error e → ¬ e.IsUnreadable

variable {α : Type}

theorem Readable.ok (a : α) : Readable (.ok a) := nofun

theorem Readable.error {e : ReplaceError} (h : ¬ e.IsUnreadable) : Readable (.error e : Except ReplaceError α) := fun _ he =>
  Except.error.inj he ▸ h

theorem Readable.bind {β : Type} {x : Except ReplaceError α} {f : α → Except ReplaceError β} (hx : Readable x) (hf : ∀ a, Readable (f a)) :
    Readable (x >>= f) := by
  intro e he
  cases x with
  | error e' => exact hx e (by cases he; rfl)
  | ok a => exact hf a e he

theorem readable_fromName (s : Bytes) : Readable (segmentGranularityFromName s) := by
  unfold segmentGranularityFromName
  split
  · exact .ok _
  · exact .error id

theorem readable_parseSegmentGranularity (value : Option Json) : Readable (parseSegmentGranularity value) := by
  unfold parseSegmentGranularity
  split
  · exact .ok _
  · exact .ok _
  · exact readable_fromName _
  · dsimp only
    split_ifs
    · exact .ok _
    · split
      · unfold segmentGranularityFromPeriod
        split
        · exact readable_fromName _
        · exact .error id
      · exact .error id
    · exact .error id
  · exact .error id

theorem readable_yearMonth0 (ts : Int64) : Readable (yearMonth0 chrono ts) := by
  unfold yearMonth0
  split
  · exact .ok _
  · exact .error id

theorem readable_ymStartMillis (year month0 : ℤ) : Readable (ymStartMillis chrono year month0) := by
  unfold ymStartMillis
  split
  · exact .ok _
  · exact .error id

theorem readable_replaceScope (granularity : SegmentGranularity) (minTs maxTs : Int64) : Readable (replaceScope chrono granularity minTs maxTs) := by
  have hmonths : ∀ {year month0 year' month0' : ℤ}, Readable (do
      let start ← ymStartMillis chrono year month0
      let stop ← ymStartMillis chrono year' month0'
      .ok (start, stop)) :=
    (readable_ymStartMillis chrono _ _).bind fun _ => (readable_ymStartMillis chrono _ _).bind fun _ => .ok _
  cases granularity with
  | all => exact .ok _
  | fixed millis anchor pos => exact .ok _
  | month => exact (readable_yearMonth0 chrono _).bind fun _ => (readable_yearMonth0 chrono _).bind fun _ => hmonths
  | quarter => exact (readable_yearMonth0 chrono _).bind fun _ => (readable_yearMonth0 chrono _).bind fun _ => hmonths
  | year => exact (readable_yearMonth0 chrono _).bind fun _ => (readable_yearMonth0 chrono _).bind fun _ => hmonths

end FerroDruid.Overlord
