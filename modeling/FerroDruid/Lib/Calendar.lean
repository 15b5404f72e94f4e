import Mathlib.Order.Bounds.Basic
import Mathlib.Order.GaloisConnection.Basic
import Mathlib.Order.Monotone.Basic
import Mathlib.Order.ConditionallyCompleteLattice.Basic
import Mathlib.Data.Int.ConditionallyCompleteOrder
/-!
# The calendar

The proleptic Gregorian calendar by days from 1970 on: months are numbered from
the start of year 0, years are counted from March on so that a leap day is the
last one, and a day is in the one month that has started and is not over.
-/

namespace FerroDruid.Lib

namespace Calendar

/-- The days from the first of March of year 0 to that of a year. -/
def yearStart (y : ℤ) : ℤ := 365 * y + y / 4 - y / 100 + y / 400

/-- The year from March on of a day from there. -/
def yearOf (z : ℤ) : ℤ :=
  let guess := 400 * z / 146097
  if z < yearStart guess then guess - 1 else if yearStart (guess + 1) ≤ z then guess + 1 else guess

theorem yearOf_spec (z : ℤ) : yearStart (yearOf z) ≤ z ∧ z < yearStart (yearOf z + 1) := by
  unfold yearOf
  dsimp only
  split_ifs with hlow hhigh
  · unfold yearStart at *
    omega
  · unfold yearStart at *
    omega
  · omega

/-- The first day of a month. -/
def monthStart (k : ℤ) : ℤ := yearStart ((k - 2) / 12) + (153 * ((k - 2) % 12) + 2) / 5 - 719468

/-- The month of a day. -/
def monthOf (d : ℤ) : ℤ :=
  let y := yearOf (d + 719468)
  12 * y + (5 * (d + 719468 - yearStart y) + 2) / 153 + 2

theorem yearStart_succ (y : ℤ) : yearStart (y + 1) = yearStart y + 365 ∨ yearStart (y + 1) = yearStart y + 366 := by
  unfold yearStart
  omega

/-- A month has a day, and 31 days at most. -/
theorem monthStart_succ (k : ℤ) : monthStart k < monthStart (k + 1) ∧ monthStart (k + 1) ≤ monthStart k + 31 := by
  unfold monthStart
  have hmod : (k - 2) % 12 = 11 ∨ (k - 2) % 12 < 11 := by omega
  rcases hmod with hlast | hlt
  · have hyear : (k + 1 - 2) / 12 = (k - 2) / 12 + 1 := by omega
    have hmonth : (k + 1 - 2) % 12 = 0 := by omega
    have hsucc := yearStart_succ ((k - 2) / 12)
    rw [hyear, hmonth, hlast]
    omega
  · have hyear : (k + 1 - 2) / 12 = (k - 2) / 12 := by omega
    have hmonth : (k + 1 - 2) % 12 = (k - 2) % 12 + 1 := by omega
    rw [hyear, hmonth]
    omega

theorem monthStart_strictMono : StrictMono monthStart := strictMono_int_of_lt_succ fun k => (monthStart_succ k).1

theorem monthOf_spec (d : ℤ) : monthStart (monthOf d) ≤ d ∧ d < monthStart (monthOf d + 1) := by
  obtain ⟨hlow, hhigh⟩ := yearOf_spec (d + 719468)
  have hsucc := yearStart_succ (yearOf (d + 719468))
  unfold monthOf monthStart
  generalize yearOf (d + 719468) = y at *
  dsimp only
  generalize hmonth : (5 * (d + 719468 - yearStart y) + 2) / 153 = m
  have hyear : (12 * y + m + 2 - 2) / 12 = y := by omega
  have hmod : (12 * y + m + 2 - 2) % 12 = m := by omega
  rw [hyear, hmod]
  refine ⟨by omega, ?_⟩
  rcases Int.lt_or_eq_of_le (show m ≤ 11 by omega) with hlt | rfl
  · have hyear' : (12 * y + m + 2 + 1 - 2) / 12 = y := by omega
    have hmod' : (12 * y + m + 2 + 1 - 2) % 12 = m + 1 := by omega
    rw [hyear', hmod']
    omega
  · have hyear' : (12 * y + 11 + 2 + 1 - 2) / 12 = y + 1 := by omega
    have hmod' : (12 * y + 11 + 2 + 1 - 2) % 12 = 0 := by omega
    rw [hyear', hmod']
    omega

theorem monthStart_le_iff {k d : ℤ} : monthStart k ≤ d ↔ k ≤ monthOf d := by
  obtain ⟨hlow, hhigh⟩ := monthOf_spec d
  constructor
  · intro h
    by_contra hlt
    have := monthStart_strictMono.monotone (show monthOf d + 1 ≤ k by omega)
    omega
  · intro h
    exact (monthStart_strictMono.monotone h).trans hlow

/-! ## Milliseconds -/

def millisPerDay : ℤ := 86400000

/-- A date and a time of day. -/
structure Fields where
  year : ℤ
  month : ℤ
  day : ℤ
  hour : ℤ
  minute : ℤ
  second : ℤ
  milli : ℤ
  deriving DecidableEq

/-- The month of an instant, and its start. -/
def monthOfMillis (t : ℤ) : ℤ := monthOf (t / millisPerDay)

def monthMillis (k : ℤ) : ℤ := monthStart k * millisPerDay

theorem monthMillis_le_iff {k t : ℤ} : monthMillis k ≤ t ↔ k ≤ monthOfMillis t := by
  rw [monthOfMillis, ← monthStart_le_iff, Int.le_ediv_iff_mul_le (by decide)]
  rfl

theorem monthMillis_strictMono : StrictMono monthMillis := fun _ _ h => Int.mul_lt_mul_of_pos_right (monthStart_strictMono h) (by decide)

def fields (t : ℤ) : Fields where
  year := monthOfMillis t / 12
  month := monthOfMillis t % 12 + 1
  day := t / millisPerDay - monthStart (monthOfMillis t) + 1
  hour := t % millisPerDay / 3600000
  minute := t % 3600000 / 60000
  second := t % 60000 / 1000
  milli := t % 1000

namespace Fields

variable (f : Fields)

/-- The month, from the start of year 0 on. -/
def monthIndex : ℤ := 12 * f.year + f.month - 1

def millis : ℤ :=
  (monthStart f.monthIndex + f.day - 1) * millisPerDay + f.hour * 3600000 + f.minute * 60000 + f.second * 1000 + f.milli

/-- A day of its month, and a time of day. -/
structure Valid : Prop where
  month : 1 ≤ f.month ∧ f.month ≤ 12
  day : 1 ≤ f.day ∧ f.day ≤ monthStart (f.monthIndex + 1) - monthStart f.monthIndex
  hour : 0 ≤ f.hour ∧ f.hour < 24
  minute : 0 ≤ f.minute ∧ f.minute < 60
  second : 0 ≤ f.second ∧ f.second < 60
  milli : 0 ≤ f.milli ∧ f.milli < 1000

instance : Decidable f.Valid :=
  decidable_of_iff ((1 ≤ f.month ∧ f.month ≤ 12) ∧ (1 ≤ f.day ∧ f.day ≤ monthStart (f.monthIndex + 1) - monthStart f.monthIndex) ∧
      (0 ≤ f.hour ∧ f.hour < 24) ∧ (0 ≤ f.minute ∧ f.minute < 60) ∧ (0 ≤ f.second ∧ f.second < 60) ∧ 0 ≤ f.milli ∧ f.milli < 1000)
    ⟨fun ⟨hmonth, hday, hhour, hminute, hsecond, hmilli⟩ => ⟨hmonth, hday, hhour, hminute, hsecond, hmilli⟩,
      fun h => ⟨h.month, h.day, h.hour, h.minute, h.second, h.milli⟩⟩

end Fields

theorem monthIndex_fields (t : ℤ) : (fields t).monthIndex = monthOfMillis t := by
  unfold fields Fields.monthIndex
  dsimp only
  omega

/-- An instant is the one that its fields say. -/
theorem millis_fields (t : ℤ) : (fields t).millis = t := by
  unfold Fields.millis
  rw [monthIndex_fields]
  unfold fields millisPerDay
  dsimp only
  omega

theorem valid_fields (t : ℤ) : (fields t).Valid where
  month := by
    unfold fields
    dsimp only
    omega
  day := by
    obtain ⟨hlow, hhigh⟩ := monthOf_spec (t / millisPerDay)
    rw [monthIndex_fields]
    unfold fields monthOfMillis
    dsimp only
    omega
  hour := by
    unfold fields millisPerDay
    dsimp only
    omega
  minute := by
    unfold fields
    dsimp only
    omega
  second := by
    unfold fields
    dsimp only
    omega
  milli := by
    unfold fields
    dsimp only
    omega

/-- The instants of the years 0 to 9999. -/
def firstCommon : ℤ := -62167219200000

def lastCommon : ℤ := 253402300799999

theorem year_common_iff (t : ℤ) : 0 ≤ (fields t).year ∧ (fields t).year ≤ 9999 ↔ firstCommon ≤ t ∧ t ≤ lastCommon := by
  have hfirst : firstCommon ≤ t ↔ 0 ≤ monthOfMillis t := by
    rw [← monthMillis_le_iff]
    exact Iff.of_eq (congrArg (· ≤ t) (by decide))
  have hlast : t ≤ lastCommon ↔ ¬ 120000 ≤ monthOfMillis t := by
    rw [← monthMillis_le_iff, show monthMillis 120000 = lastCommon + 1 by decide]
    omega
  unfold fields
  dsimp only
  omega

/-! ## Floors -/

/-- The greatest of some boundaries that is not after an instant. -/
def IsFloor (boundaries : Set ℤ) (t m : ℤ) : Prop := IsGreatest {b | b ∈ boundaries ∧ b ≤ t} m

namespace IsFloor

variable {boundaries : Set ℤ} {t t' m m' : ℤ}

section

variable (h : IsFloor boundaries t m)

include h

/-- No boundary is between an instant and its floor. -/
theorem le_iff {b : ℤ} (hb : b ∈ boundaries) : b ≤ m ↔ b ≤ t :=
  ⟨fun hle => hle.trans h.1.2, fun hle => h.2 ⟨hb, hle⟩⟩

theorem unique (h' : IsFloor boundaries t m') : m = m' := IsGreatest.unique h h'

theorem mono (h' : IsFloor boundaries t' m') (hle : t ≤ t') : m ≤ m' := h'.2 ⟨h.1.1, h.1.2.trans hle⟩

/-- A boundary is its own floor. -/
theorem self : IsFloor boundaries m m := ⟨⟨h.1.1, le_rfl⟩, fun _ hb => hb.2⟩

end

end IsFloor

theorem isFloor_mul {period : ℤ} (hpos : 0 < period) (t : ℤ) : IsFloor {b | period ∣ b} t (t / period * period) := by
  refine ⟨⟨⟨t / period, Int.mul_comm _ _⟩, Int.ediv_mul_le t hpos.ne'⟩, ?_⟩
  rintro b ⟨⟨k, rfl⟩, hle⟩
  rw [Int.mul_comm period k] at hle ⊢
  exact Int.mul_le_mul_of_nonneg_right ((Int.le_ediv_iff_mul_le hpos).2 hle) hpos.le

theorem isFloor_month (t : ℤ) : IsFloor (Set.range monthMillis) t (monthMillis (monthOfMillis t)) := by
  refine ⟨⟨⟨_, rfl⟩, monthMillis_le_iff.2 le_rfl⟩, ?_⟩
  rintro _ ⟨⟨k, rfl⟩, hle⟩
  exact monthMillis_strictMono.monotone (monthMillis_le_iff.1 hle)

theorem isFloor_year (t : ℤ) : IsFloor (Set.range fun y => monthMillis (12 * y)) t (monthMillis (12 * (monthOfMillis t / 12))) := by
  refine ⟨⟨⟨_, rfl⟩, monthMillis_le_iff.2 (by omega)⟩, ?_⟩
  rintro _ ⟨⟨y, rfl⟩, hle⟩
  have hyear := monthMillis_le_iff.1 hle
  exact monthMillis_strictMono.monotone (by omega)

end Calendar

/-! ## Buckets

The integers cut into buckets that are numbered in order: a bucket is where its
number starts, up to where the next number starts. -/

/-- Where each bucket starts, and which one an integer is in. -/
structure Buckets where
  start : ℤ → ℤ
  index : ℤ → ℤ
  gc : GaloisConnection start index

namespace Buckets

variable (b : Buckets)

theorem start_le_iff {k t : ℤ} : b.start k ≤ t ↔ k ≤ b.index t := b.gc k t

theorem lt_start_iff {k t : ℤ} : t < b.start k ↔ b.index t < k := by
  rw [← not_le, b.start_le_iff, not_le]

theorem start_index_le (t : ℤ) : b.start (b.index t) ≤ t := b.gc.l_u_le t

theorem lt_start_succ (t : ℤ) : t < b.start (b.index t + 1) := b.lt_start_iff.2 (by omega)

theorem index_mono : Monotone b.index := b.gc.monotone_u

/-- Of one length, from an anchor on. -/
def fixed (anchor length : ℤ) (pos : 0 < length) : Buckets where
  start k := anchor + k * length
  index t := (t - anchor) / length
  gc k t := by
    rw [Int.le_ediv_iff_mul_le pos]
    dsimp only
    omega

/-- Of so many months. -/
def months (n : ℤ) (pos : 0 < n) : Buckets where
  start k := Calendar.monthMillis (k * n)
  index t := Calendar.monthOfMillis t / n
  gc k t := by
    rw [Calendar.monthMillis_le_iff, Int.le_ediv_iff_mul_le pos]

end Buckets

end FerroDruid.Lib
