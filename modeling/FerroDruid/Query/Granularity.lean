import FerroDruid.Query.Segment
/-!
# Granularities

The buckets of times: `bucket_timestamp`, `validate_granularity` and what fills the
gaps between buckets. Bucket starts are integers; months, quarters and years are
the calendar's.
-/

namespace FerroDruid.Query

inductive Granularity where
  | none
  | second
  | minute
  | fiveMinute
  | tenMinute
  | fifteenMinute
  | thirtyMinute
  | hour
  | sixHour
  | day
  | week
  | month
  | quarter
  | year
  | duration (periodMs : UInt64) (origin : Int64)
  deriving DecidableEq

/-- A simple granularity is its text in lower case. -/
inductive GranularitySpec where
  | simple (s : String)
  | full (g : Granularity)
  deriving DecidableEq

/-- Calendar buckets of `chrono`. -/
structure Calendar where
  bucketMonth : Int64 → ℤ
  bucketQuarter : Int64 → ℤ
  bucketYear : Int64 → ℤ

def i64Min : ℤ := -2 ^ 63

def i64Max : ℤ := 2 ^ 63 - 1

def validateGranularity : GranularitySpec → Except DruidError Unit
  | .full (.duration periodMs _) =>
    if periodMs = 0 then .error (.query "granularity duration periodMs must be greater than 0")
    else if i64Max < periodMs.toNat then .error (.query "granularity duration periodMs is too large")
    else .ok ()
  | _ => .ok ()

/-- Fixed periods from the epoch, rounded towards it. -/
def bucketFixed (periodMs : ℤ) (ts : Int64) : ℤ := ts.toInt.tdiv periodMs * periodMs

/-- Periods from an origin, rounded down; the first bucket saturates. -/
def bucketFrom (periodMs origin : ℤ) (ts : Int64) : ℤ :=
  max i64Min ((ts.toInt - origin).fdiv periodMs * periodMs + origin)

/-- Weeks start on Mondays. -/
def bucketWeek (ts : Int64) : ℤ := bucketFrom 604800000 (-259200000) ts

def bucketTimestamp (calendar : Calendar) (ts : Int64) : GranularitySpec → ℤ
  | .simple s =>
    match s with
    | "all" => 0
    | "none" => ts.toInt
    | "second" => bucketFixed 1000 ts
    | "minute" => bucketFixed 60000 ts
    | "five_minute" => bucketFixed 300000 ts
    | "ten_minute" => bucketFixed 600000 ts
    | "fifteen_minute" => bucketFixed 900000 ts
    | "thirty_minute" => bucketFixed 1800000 ts
    | "hour" => bucketFixed 3600000 ts
    | "six_hour" => bucketFixed 21600000 ts
    | "day" => bucketFixed 86400000 ts
    | "week" => bucketWeek ts
    | "month" => calendar.bucketMonth ts
    | "quarter" => calendar.bucketQuarter ts
    | "year" => calendar.bucketYear ts
    | _ => 0
  | .full g =>
    match g with
    | .none => ts.toInt
    | .second => bucketFixed 1000 ts
    | .minute => bucketFixed 60000 ts
    | .fiveMinute => bucketFixed 300000 ts
    | .tenMinute => bucketFixed 600000 ts
    | .fifteenMinute => bucketFixed 900000 ts
    | .thirtyMinute => bucketFixed 1800000 ts
    | .hour => bucketFixed 3600000 ts
    | .sixHour => bucketFixed 21600000 ts
    | .day => bucketFixed 86400000 ts
    | .week => bucketWeek ts
    | .month => calendar.bucketMonth ts
    | .quarter => calendar.bucketQuarter ts
    | .year => calendar.bucketYear ts
    | .duration periodMs origin =>
      let period := min (periodMs.toNat : ℤ) i64Max
      if period ≤ 0 then ts.toInt else bucketFrom period origin.toInt ts

/-! ## Filling -/

/-- The period of granularities whose gaps are filled. -/
def uniformPeriodMs : GranularitySpec → Option ℤ
  | .simple s =>
    match s with
    | "second" => some 1000
    | "minute" => some 60000
    | "five_minute" => some 300000
    | "ten_minute" => some 600000
    | "fifteen_minute" => some 900000
    | "thirty_minute" => some 1800000
    | "hour" => some 3600000
    | "six_hour" => some 21600000
    | "day" => some 86400000
    | "week" => some 604800000
    | _ => none
  | .full g =>
    match g with
    | .second => some 1000
    | .minute => some 60000
    | .fiveMinute => some 300000
    | .tenMinute => some 600000
    | .fifteenMinute => some 900000
    | .thirtyMinute => some 1800000
    | .hour => some 3600000
    | .sixHour => some 21600000
    | .day => some 86400000
    | .week => some 604800000
    | .duration periodMs _ => if (periodMs.toNat : ℤ) ≤ i64Max then some periodMs.toNat else none
    | _ => none

def isAllGranularity : GranularitySpec → Bool
  | .simple s => s = "all"
  | .full _ => false

/-- Gaps are filled within periods one step coarser. -/
def nextCoarserPeriodMs (periodMs : ℤ) : ℤ :=
  if periodMs < 3600000 then 3600000 else if periodMs < 86400000 then 86400000 else if periodMs < 604800000 then 604800000 else periodMs

theorem uniformPeriodMs_pos {g : GranularitySpec} {period : ℤ} (hvalid : validateGranularity g = .ok ()) (h : uniformPeriodMs g = some period) :
    0 < period := by
  unfold uniformPeriodMs at h
  split at h
  · split at h <;> first | (obtain rfl := Option.some.inj h; decide) | exact absurd h nofun
  · rename_i g
    cases g with
    | duration periodMs origin =>
      simp only at h
      split_ifs at h with hle
      obtain rfl := Option.some.inj h
      rcases Nat.eq_zero_or_pos periodMs.toNat with hzero | hpos
      · obtain rfl : periodMs = 0 := UInt64.toNat_inj.1 hzero
        simp [validateGranularity] at hvalid
      · exact_mod_cast hpos
    | _ => first | (obtain rfl := Option.some.inj h; decide) | exact absurd h nofun

end FerroDruid.Query
