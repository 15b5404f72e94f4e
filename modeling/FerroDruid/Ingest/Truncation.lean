import FerroDruid.Ingest.Rows
import FerroDruid.Lib.Calendar
/-!
# Times cut to a granularity

`truncate_timestamp` of `ferrodruid-ingest-batch/src/lib.rs` goes through the calendar of
`chrono` and back. A time that the calendar does not reach becomes the epoch.
-/

namespace FerroDruid.Ingest

open Lib Calendar

/-! ## The calendar -/

/-- The dates of `chrono`, from the year -262143 to the year 262142. -/
def InCalendar (t : Int64) : Prop := monthMillis (12 * -262143) ≤ t.toInt ∧ t.toInt < monthMillis (12 * 262143)

instance (t : Int64) : Decidable (InCalendar t) := inferInstanceAs (Decidable (_ ∧ _))

/-- A date and a time of day as `chrono` has them. -/
def naive (f : Fields) : NaiveDateTime :=
  ⟨f.year, f.month.toNat, f.day.toNat, f.hour.toNat, f.minute.toNat, f.second.toNat, f.milli.toNat * 1000000⟩

/-- `DateTime::from_timestamp_millis` with `unwrap_or_default`, and `timestamp_millis`. -/
def orDefault (fromTimestampMillis : Int64 → Option NaiveDateTime) (timestampMillis : NaiveDateTime → Int64) : Chrono where
  fromTimestampMillis t := (fromTimestampMillis t).getD (naive (fields 0))
  timestampMillis := timestampMillis

/-- What the code relies on: the proleptic Gregorian calendar for the years it has. -/
structure LawfulConversions (fromTimestampMillis : Int64 → Option NaiveDateTime) (timestampMillis : NaiveDateTime → Int64) : Prop where
  from_eq : ∀ t, fromTimestampMillis t = if InCalendar t then some (naive (fields t.toInt)) else none
  back : ∀ f : Fields, f.Valid → -262143 ≤ f.year → f.year < 262143 → timestampMillis (naive f) = Int64.ofInt f.millis

/-! ## Grains -/

inductive Grain where
  | none
  | second
  | minute
  | hour
  | day
  | month
  | year
  deriving DecidableEq

namespace Grain

def name : Grain → String
  | none => "none"
  | second => "second"
  | minute => "minute"
  | hour => "hour"
  | day => "day"
  | month => "month"
  | year => "year"

/-- Where a grain begins. -/
def boundaries : Grain → Set ℤ
  | none => Set.univ
  | second => {b | 1000 ∣ b}
  | minute => {b | 60000 ∣ b}
  | hour => {b | 3600000 ∣ b}
  | day => {b | millisPerDay ∣ b}
  | month => Set.range monthMillis
  | year => Set.range fun y => monthMillis (12 * y)

/-- The fields that a grain keeps. -/
def cut (f : Fields) : Grain → Fields
  | none => f
  | second => { f with milli := 0 }
  | minute => { f with second := 0, milli := 0 }
  | hour => { f with minute := 0, second := 0, milli := 0 }
  | day => { f with hour := 0, minute := 0, second := 0, milli := 0 }
  | month => { f with day := 1, hour := 0, minute := 0, second := 0, milli := 0 }
  | year => { f with month := 1, day := 1, hour := 0, minute := 0, second := 0, milli := 0 }

end Grain

theorem truncateTimestamp_eq (chrono : Chrono) (t : Int64) (f : Fields) (h : chrono.fromTimestampMillis t = naive f) (g : Grain) :
    truncateTimestamp chrono t g.name = chrono.timestampMillis (naive (g.cut f)) := by
  unfold truncateTimestamp
  rw [h]
  cases g <;> simp [Grain.name, Grain.cut, naive]

theorem Grain.valid_cut {f : Fields} (h : f.Valid) (g : Grain) : (g.cut f).Valid := by
  obtain ⟨hmonth, hday, hhour, hminute, hsecond, hmilli⟩ := h
  have hfirst : ∀ k, 1 ≤ monthStart (k + 1) - monthStart k := fun k => by
    have := (monthStart_succ k).1
    omega
  have hzero : ∀ n : ℤ, 0 < n → 0 ≤ (0 : ℤ) ∧ (0 : ℤ) < n := fun n hn => ⟨le_rfl, hn⟩
  cases g
  case none => exact ⟨hmonth, hday, hhour, hminute, hsecond, hmilli⟩
  case second => exact ⟨hmonth, hday, hhour, hminute, hsecond, hzero _ (by decide)⟩
  case minute => exact ⟨hmonth, hday, hhour, hminute, hzero _ (by decide), hzero _ (by decide)⟩
  case hour => exact ⟨hmonth, hday, hhour, hzero _ (by decide), hzero _ (by decide), hzero _ (by decide)⟩
  case day => exact ⟨hmonth, hday, hzero _ (by decide), hzero _ (by decide), hzero _ (by decide), hzero _ (by decide)⟩
  case month => exact ⟨hmonth, ⟨le_rfl, hfirst _⟩, hzero _ (by decide), hzero _ (by decide), hzero _ (by decide), hzero _ (by decide)⟩
  case year =>
    have hjanuary : (1 : ℤ) ≤ 1 ∧ (1 : ℤ) ≤ 12 := by decide
    exact ⟨hjanuary, ⟨le_rfl, hfirst _⟩, hzero _ (by decide), hzero _ (by decide), hzero _ (by decide), hzero _ (by decide)⟩

@[simp] theorem Grain.year_cut (f : Fields) (g : Grain) : (g.cut f).year = f.year := by cases g <;> rfl

/-- A time on the day of an instant. -/
theorem millis_on_day (t h m s l : ℤ) : ({ fields t with hour := h, minute := m, second := s, milli := l } : Fields).millis =
    t / millisPerDay * millisPerDay + h * 3600000 + m * 60000 + s * 1000 + l := by
  have hmonth := monthIndex_fields t
  unfold Fields.millis Fields.monthIndex
  unfold Fields.monthIndex at hmonth
  rw [hmonth]
  unfold fields
  rw [show monthStart (monthOfMillis t) + (t / millisPerDay - monthStart (monthOfMillis t) + 1) - 1 = t / millisPerDay by omega]

/-- Midnight on the first of a month. -/
theorem millis_first (year month : ℤ) : (⟨year, month, 1, 0, 0, 0, 0⟩ : Fields).millis = monthMillis (12 * year + month - 1) := by
  unfold Fields.millis Fields.monthIndex monthMillis
  dsimp only
  rw [Int.add_sub_cancel]
  omega

/-- The fields that are kept are those of the floor. -/
theorem Grain.isFloor_cut (t : ℤ) (g : Grain) : IsFloor g.boundaries t (g.cut (fields t)).millis := by
  cases g with
  | none =>
    rw [Grain.cut, millis_fields]
    exact ⟨⟨Set.mem_univ t, le_rfl⟩, fun b hb => hb.2⟩
  | second =>
    have heq : (Grain.cut (fields t) .second).millis = t / 1000 * 1000 := by
      refine (millis_on_day t (t % millisPerDay / 3600000) (t % 3600000 / 60000) (t % 60000 / 1000) 0).trans ?_
      unfold millisPerDay
      omega
    rw [heq]
    exact isFloor_mul (by decide) t
  | minute =>
    have heq : (Grain.cut (fields t) .minute).millis = t / 60000 * 60000 := by
      refine (millis_on_day t (t % millisPerDay / 3600000) (t % 3600000 / 60000) 0 0).trans ?_
      unfold millisPerDay
      omega
    rw [heq]
    exact isFloor_mul (by decide) t
  | hour =>
    have heq : (Grain.cut (fields t) .hour).millis = t / 3600000 * 3600000 := by
      refine (millis_on_day t (t % millisPerDay / 3600000) 0 0 0).trans ?_
      unfold millisPerDay
      omega
    rw [heq]
    exact isFloor_mul (by decide) t
  | day =>
    have heq : (Grain.cut (fields t) .day).millis = t / millisPerDay * millisPerDay := by
      refine (millis_on_day t 0 0 0 0).trans ?_
      omega
    rw [heq]
    exact isFloor_mul (by decide) t
  | month =>
    have heq : (Grain.cut (fields t) .month).millis = monthMillis (monthOfMillis t) := by
      refine (millis_first (monthOfMillis t / 12) (monthOfMillis t % 12 + 1)).trans (congrArg _ ?_)
      omega
    rw [heq]
    exact isFloor_month t
  | year =>
    have heq : (Grain.cut (fields t) .year).millis = monthMillis (12 * (monthOfMillis t / 12)) := by
      refine (millis_first (monthOfMillis t / 12) 1).trans (congrArg _ ?_)
      omega
    rw [heq]
    exact isFloor_year t

/-! ## Truncation -/

/-- Every grain begins with a year. -/
theorem Grain.year_mem (g : Grain) (y : ℤ) : monthMillis (12 * y) ∈ g.boundaries := by
  cases g with
  | none => exact Set.mem_univ _
  | second => exact Int.dvd_mul_of_dvd_right (by decide)
  | minute => exact Int.dvd_mul_of_dvd_right (by decide)
  | hour => exact Int.dvd_mul_of_dvd_right (by decide)
  | day => exact Int.dvd_mul_of_dvd_right (by decide)
  | month => exact ⟨_, rfl⟩
  | year => exact ⟨_, rfl⟩

variable {fromTimestampMillis : Int64 → Option NaiveDateTime} {timestampMillis : NaiveDateTime → Int64}

section

variable (h : LawfulConversions fromTimestampMillis timestampMillis)

include h

variable {t : Int64}

/-- Within the calendar a time is cut to its floor. -/
theorem isFloor_truncateTimestamp (ht : InCalendar t) (g : Grain) :
    IsFloor g.boundaries t.toInt (truncateTimestamp (orDefault fromTimestampMillis timestampMillis) t g.name).toInt := by
  have hfrom : (orDefault fromTimestampMillis timestampMillis).fromTimestampMillis t = naive (fields t.toInt) := by
    show (fromTimestampMillis t).getD _ = _
    rw [h.from_eq, if_pos ht, Option.getD_some]
  have hfloor := g.isFloor_cut t.toInt
  have hyear : -262143 ≤ (fields t.toInt).year ∧ (fields t.toInt).year < 262143 := by
    obtain ⟨hlow, hhigh⟩ := ht
    rw [monthMillis_le_iff] at hlow
    rw [← not_le, monthMillis_le_iff] at hhigh
    unfold fields
    dsimp only
    omega
  have hback := h.back (g.cut (fields t.toInt)) (g.valid_cut (valid_fields _)) (by simpa using hyear.1) (by simpa using hyear.2)
  have hlow := (hfloor.le_iff (g.year_mem _)).2 ht.1
  have hfirst : (-2 : ℤ) ^ 63 ≤ monthMillis (12 * -262143) := by decide
  have htop := t.toInt_lt
  have hle := hfloor.1.2
  rw [truncateTimestamp_eq _ t _ hfrom]
  show IsFloor _ _ (timestampMillis (naive (g.cut (fields t.toInt)))).toInt
  rw [hback, Int64.toInt_ofInt_of_le (by omega) (by omega)]
  exact hfloor

theorem inCalendar_truncateTimestamp (ht : InCalendar t) (g : Grain) :
    InCalendar (truncateTimestamp (orDefault fromTimestampMillis timestampMillis) t g.name) := by
  have hfloor := isFloor_truncateTimestamp h ht g
  exact ⟨(hfloor.le_iff (g.year_mem _)).2 ht.1, hfloor.1.2.trans_lt ht.2⟩

/-- What the calendar does not reach is cut to the epoch. -/
theorem truncateTimestamp_outside (ht : ¬ InCalendar t) (g : Grain) :
    truncateTimestamp (orDefault fromTimestampMillis timestampMillis) t g.name = 0 := by
  have hfrom : (orDefault fromTimestampMillis timestampMillis).fromTimestampMillis t = naive (fields 0) := by
    show (fromTimestampMillis t).getD _ = _
    rw [h.from_eq, if_neg ht, Option.getD_none]
  have hback := h.back (g.cut (fields 0)) (g.valid_cut (valid_fields _)) (by rw [Grain.year_cut]; decide) (by rw [Grain.year_cut]; decide)
  rw [truncateTimestamp_eq _ t _ hfrom]
  show timestampMillis (naive (g.cut (fields 0))) = 0
  rw [hback]
  cases g <;> decide

theorem not_isFloor_truncateTimestamp (ht : ¬ InCalendar t) (g : Grain) :
    ¬ IsFloor g.boundaries t.toInt (truncateTimestamp (orDefault fromTimestampMillis timestampMillis) t g.name).toInt := by
  rw [truncateTimestamp_outside h ht]
  intro hfloor
  refine ht ⟨?_, ?_⟩
  · have hfirst : monthMillis (12 * -262143) ≤ (0 : Int64).toInt := by decide
    exact hfirst.trans hfloor.1.2
  · by_contra hnot
    rw [not_lt] at hnot
    have hlast : ¬ monthMillis (12 * 262143) ≤ (0 : Int64).toInt := by decide
    exact hlast ((hfloor.le_iff (g.year_mem _)).2 hnot)

/-- A time is cut to the floor of its grain exactly when the calendar reaches it; there
cutting is monotone, cuts nothing twice and leaves every time in its bucket. -/
theorem truncateTimestamp_floor_iff :
    (∀ (t : Int64) (g : Grain), IsFloor g.boundaries t.toInt
      (truncateTimestamp (orDefault fromTimestampMillis timestampMillis) t g.name).toInt ↔ InCalendar t) ∧
    ∀ (t : Int64) (g : Grain), InCalendar t →
      truncateTimestamp (orDefault fromTimestampMillis timestampMillis)
          (truncateTimestamp (orDefault fromTimestampMillis timestampMillis) t g.name) g.name =
        truncateTimestamp (orDefault fromTimestampMillis timestampMillis) t g.name ∧
      (∀ b ∈ g.boundaries, b ≤ (truncateTimestamp (orDefault fromTimestampMillis timestampMillis) t g.name).toInt ↔ b ≤ t.toInt) ∧
      ∀ t', InCalendar t' → t ≤ t' → truncateTimestamp (orDefault fromTimestampMillis timestampMillis) t g.name ≤
        truncateTimestamp (orDefault fromTimestampMillis timestampMillis) t' g.name := by
  refine ⟨fun t g => ⟨fun hfloor => ?_, fun ht => isFloor_truncateTimestamp h ht g⟩, fun t g ht => ⟨?_, ?_, fun t' ht' hle => ?_⟩⟩
  · by_contra ht
    exact not_isFloor_truncateTimestamp h ht g hfloor
  · have hself := (isFloor_truncateTimestamp h ht g).self
    have hagain := isFloor_truncateTimestamp h (inCalendar_truncateTimestamp h ht g) g
    exact Int64.toInt_inj.1 (hagain.unique hself)
  · exact fun b hb => (isFloor_truncateTimestamp h ht g).le_iff hb
  · rw [Int64.le_iff_toInt_le] at hle ⊢
    exact (isFloor_truncateTimestamp h ht g).mono (isFloor_truncateTimestamp h ht' g) hle

end

/-! ## The calendar itself -/

/-- A date as fields. -/
def NaiveDateTime.fields (n : NaiveDateTime) : Fields := ⟨n.year, n.month, n.day, n.hour, n.minute, n.second, n.nanos / 1000000⟩

def gregorianFrom (t : Int64) : Option NaiveDateTime := if InCalendar t then some (naive (Calendar.fields t.toInt)) else none

def gregorianBack (n : NaiveDateTime) : Int64 := Int64.ofInt n.fields.millis

theorem lawful_gregorian_conversions : LawfulConversions gregorianFrom gregorianBack where
  from_eq _ := rfl
  back f hvalid _ _ := by
    obtain ⟨hmonth, hday, hhour, hminute, hsecond, hmilli⟩ := hvalid
    have hfields : (naive f).fields = f := by
      unfold naive NaiveDateTime.fields
      dsimp only
      congr 1 <;> omega
    rw [gregorianBack, hfields]

theorem truncateTimestamp_floor_gregorian : IsFloor Grain.day.boundaries (1700000000123 : Int64).toInt
    (truncateTimestamp (orDefault gregorianFrom gregorianBack) 1700000000123 Grain.day.name).toInt :=
  ((truncateTimestamp_floor_iff lawful_gregorian_conversions).1 1700000000123 .day).2 (by decide +kernel)

/-- The last millisecond of 64 bits becomes the epoch. -/
theorem last_time_relocated : truncateTimestamp (orDefault gregorianFrom gregorianBack) 9223372036854775807 "day" = 0 ∧
    ¬ IsFloor Grain.day.boundaries (9223372036854775807 : Int64).toInt
      (truncateTimestamp (orDefault gregorianFrom gregorianBack) 9223372036854775807 "day").toInt :=
  ⟨by decide +kernel, not_isFloor_truncateTimestamp lawful_gregorian_conversions (by decide +kernel) .day⟩

end FerroDruid.Ingest
