import FerroDruid.Lib.Calendar
import FerroDruid.Query.Granularity
/-!
# Buckets of one length

`bucket_timestamp` for the granularities whose buckets have one length. Weeks and
durations are rounded down; the named periods that start at the epoch are rounded
towards it, which is up before 1970.
-/

namespace FerroDruid.Query

open Lib

namespace GranularitySpec

/-- Where the buckets of a granularity are counted from. -/
def originMs : GranularitySpec → ℤ
  | .simple "week" | .full .week => -259200000
  | .full (.duration _ origin) => origin.toInt
  | _ => 0

/-- The granularities whose buckets are rounded towards the epoch. -/
def truncates : GranularitySpec → Bool
  | .simple "week" | .full .week | .full (.duration _ _) => false
  | _ => true

end GranularitySpec

open GranularitySpec

variable {calendar : Calendar} {g : GranularitySpec} {d : ℤ}

theorem bucketTimestamp_eq (h : uniformPeriodMs g = some d) (hd : 0 < d) (ts : Int64) :
    bucketTimestamp calendar ts g = if g.truncates then bucketFixed d ts else bucketFrom d g.originMs ts := by
  cases g with
  | simple s =>
    simp only [uniformPeriodMs] at h
    split at h <;> first | (obtain rfl := Option.some.inj h; rfl) | exact absurd h nofun
  | full g =>
    cases g with
    | duration periodMs origin =>
      simp only [uniformPeriodMs] at h
      split_ifs at h with hle
      obtain rfl := Option.some.inj h
      simp only [bucketTimestamp, truncates, originMs, min_eq_left hle, if_neg (not_le.2 hd), Bool.false_eq_true, ↓reduceIte]
    | _ => first | (obtain rfl := Option.some.inj h; rfl) | exact absurd h nofun

/-! ## What a bucket is for -/

/-- The buckets that the granularity means. -/
abbrev bucketsOf (g : GranularitySpec) (hd : 0 < d) : Buckets := .fixed g.originMs d hd

/-- The bucket of a time starts at a time. -/
def Representable (g : GranularitySpec) (hd : 0 < d) (t : Int64) : Prop :=
  i64Min ≤ (bucketsOf g hd).start ((bucketsOf g hd).index t.toInt)

instance (hd : 0 < d) (t : Int64) : Decidable (Representable g hd t) := inferInstanceAs (Decidable (_ ≤ _))

/-- The bucket starts on a boundary, and the time is in it. -/
def Floors (calendar : Calendar) (g : GranularitySpec) (d : ℤ) (t : Int64) : Prop :=
  bucketTimestamp calendar t g ≤ t.toInt ∧ t.toInt < bucketTimestamp calendar t g + d ∧ d ∣ bucketTimestamp calendar t g - g.originMs

/-- Buckets are floors, and what follows for two times: a bucket is its own bucket,
the order is kept, and one bucket is shared when no boundary lies between. -/
structure FloorsBoth (calendar : Calendar) (g : GranularitySpec) (d : ℤ) (t t' : Int64) : Prop where
  floors : Floors calendar g d t
  floors' : Floors calendar g d t'
  idempotent : bucketTimestamp calendar (.ofInt (bucketTimestamp calendar t g)) g = bucketTimestamp calendar t g
  monotone : t ≤ t' → bucketTimestamp calendar t g ≤ bucketTimestamp calendar t' g
  shared : bucketTimestamp calendar t g = bucketTimestamp calendar t' g ↔ ∀ b, d ∣ b - g.originMs → (b ≤ t.toInt ↔ b ≤ t'.toInt)

/-- The times that are not rounded up. -/
def NotRaised (g : GranularitySpec) (d : ℤ) (t : Int64) : Prop := g.truncates = true → 0 ≤ t.toInt ∨ d ∣ t.toInt

/-- The floor, as an integer. -/
abbrev floorMs (g : GranularitySpec) (hd : 0 < d) (t : ℤ) : ℤ := (bucketsOf g hd).start ((bucketsOf g hd).index t)

theorem start_succ (hd : 0 < d) (k : ℤ) : (bucketsOf g hd).start (k + 1) = (bucketsOf g hd).start k + d := by
  show g.originMs + (k + 1) * d = g.originMs + k * d + d
  ring

theorem dvd_start (hd : 0 < d) (k : ℤ) : d ∣ (bucketsOf g hd).start k - g.originMs := ⟨k, by
  show g.originMs + k * d - g.originMs = d * k
  ring⟩

theorem floors_iff_floor (hd : 0 < d) (t : Int64) : Floors calendar g d t ↔ bucketTimestamp calendar t g = floorMs g hd t.toInt := by
  constructor
  · rintro ⟨hle, hlt, k, hk⟩
    have hindex : (bucketsOf g hd).index t.toInt = k := by
      apply (Int.ediv_eq_iff_of_pos hd).2
      rw [mul_comm k d]
      constructor <;> omega
    rw [floorMs, hindex]
    show _ = g.originMs + k * d
    rw [mul_comm k d]
    omega
  · intro h
    have hlt := (bucketsOf g hd).lt_start_succ t.toInt
    rw [start_succ] at hlt
    rw [Floors, h]
    exact ⟨(bucketsOf g hd).start_index_le t.toInt, hlt, dvd_start hd _⟩

theorem originMs_of_truncates (h : g.truncates = true) : g.originMs = 0 := by
  unfold truncates at h
  unfold originMs
  split at h
  · exact absurd h nofun
  · exact absurd h nofun
  · exact absurd h nofun
  · rfl

/-- Rounding towards zero stays at or below only what is not negative, or whole. -/
theorem tdiv_mul_le_iff (hd : 0 < d) (t : ℤ) : t.tdiv d * d ≤ t ↔ 0 ≤ t ∨ d ∣ t := by
  constructor
  · intro hle
    rcases le_or_gt 0 t with hpos | hneg
    · exact .inl hpos
    · right
      have hneg' : t.tdiv d = -((-t) / d) := by
        rw [← Int.tdiv_eq_ediv_of_nonneg (by omega), Int.neg_tdiv, neg_neg]
      have hback : (-t) / d * d ≤ -t := Int.ediv_mul_le _ hd.ne'
      rw [hneg', neg_mul] at hle
      have heq : (-t) / d * d = -t := le_antisymm hback (by omega)
      exact (Int.dvd_neg).1 (Dvd.intro_left _ heq)
  · rintro (hpos | hdvd)
    · rw [Int.tdiv_eq_ediv_of_nonneg hpos]
      exact Int.ediv_mul_le _ hd.ne'
    · rw [Int.tdiv_mul_cancel hdvd]

theorem tdiv_mul_eq {t : ℤ} (h : 0 ≤ t ∨ d ∣ t) : t.tdiv d * d = t / d * d := by
  rcases h with hpos | hdvd
  · rw [Int.tdiv_eq_ediv_of_nonneg hpos]
  · rw [Int.tdiv_mul_cancel hdvd, Int.ediv_mul_cancel hdvd]

theorem floors_iff_notRaised (h : uniformPeriodMs g = some d) {hd : 0 < d} {t : Int64} (ht : Representable g hd t) :
    Floors calendar g d t ↔ NotRaised g d t := by
  unfold NotRaised
  cases htruncates : g.truncates with
  | true =>
    have heq : bucketTimestamp calendar t g = t.toInt.tdiv d * d := by rw [bucketTimestamp_eq h hd, if_pos htruncates, bucketFixed]
    rw [imp_iff_right rfl]
    constructor
    · rintro ⟨hle, -⟩
      exact (tdiv_mul_le_iff hd _).1 (heq ▸ hle)
    · intro hkept
      rw [floors_iff_floor hd, heq, tdiv_mul_eq hkept]
      show _ = g.originMs + (t.toInt - g.originMs) / d * d
      rw [originMs_of_truncates htruncates, sub_zero, zero_add]
  | false =>
    refine iff_of_true ((floors_iff_floor hd t).2 ?_) nofun
    have hfloor : (t.toInt - g.originMs).fdiv d * d + g.originMs = floorMs g hd t.toInt := by
      rw [Int.fdiv_eq_ediv_of_nonneg _ hd.le]
      exact add_comm _ _
    rw [bucketTimestamp_eq h hd, htruncates, bucketFrom, hfloor]
    exact max_eq_right ht

/-! ## What follows for two times -/

/-- A bucket that is not the saturated one is the start of its own bucket. -/
theorem bucketTimestamp_idempotent (h : uniformPeriodMs g = some d) {hd : 0 < d} {t : Int64} (ht : Representable g hd t)
    (hfloors : Floors calendar g d t) :
    bucketTimestamp calendar (.ofInt (bucketTimestamp calendar t g)) g = bucketTimestamp calendar t g := by
  have ⟨hle, _, hdvd⟩ := hfloors
  have heq := (floors_iff_floor hd t).1 hfloors
  have hint : (Int64.ofInt (bucketTimestamp calendar t g)).toInt = bucketTimestamp calendar t g := by
    apply Int64.toInt_ofInt_of_le
    · rw [heq]
      exact ht
    · exact hle.trans_lt t.toInt_lt
  have hself : floorMs g hd (bucketTimestamp calendar t g) = bucketTimestamp calendar t g := by
    have hindex : (bucketsOf g hd).index (floorMs g hd t.toInt) = (bucketsOf g hd).index t.toInt := by
      refine le_antisymm ((bucketsOf g hd).index_mono ((bucketsOf g hd).start_index_le _)) ?_
      exact (bucketsOf g hd).start_le_iff.1 le_rfl
    rw [heq, floorMs, hindex]
  have hrep : Representable g hd (.ofInt (bucketTimestamp calendar t g)) := by
    unfold Representable
    rw [hint]
    exact ht.trans_eq (heq.symm.trans hself.symm)
  have hkept : NotRaised g d (.ofInt (bucketTimestamp calendar t g)) := by
    intro htruncates
    rw [originMs_of_truncates htruncates, sub_zero] at hdvd
    rw [hint]
    exact .inr hdvd
  rw [(floors_iff_floor hd _).1 ((floors_iff_notRaised h hrep).2 hkept), hint]
  exact hself

/-- A boundary between two times is where their buckets part. -/
theorem floorMs_eq_iff (hd : 0 < d) (t t' : ℤ) :
    floorMs g hd t = floorMs g hd t' ↔ ∀ b, d ∣ b - g.originMs → (b ≤ t ↔ b ≤ t') := by
  constructor
  · rintro heq b ⟨k, hk⟩
    have hb : b = (bucketsOf g hd).start k := by
      show b = g.originMs + k * d
      rw [mul_comm k d]
      omega
    have hfloor : ∀ s, b ≤ s ↔ b ≤ floorMs g hd s := by
      intro s
      constructor
      · intro hle
        rw [hb] at hle ⊢
        exact (bucketsOf g hd).gc.monotone_l ((bucketsOf g hd).start_le_iff.1 hle)
      · intro hle
        exact hle.trans ((bucketsOf g hd).start_index_le s)
    rw [hfloor t, hfloor t', heq]
  · intro hall
    have hother : ∀ s s', (∀ b, d ∣ b - g.originMs → (b ≤ s ↔ b ≤ s')) → floorMs g hd s ≤ floorMs g hd s' := by
      intro s s' hiff
      have hle := (hiff _ (dvd_start hd _)).1 ((bucketsOf g hd).start_index_le s)
      exact (bucketsOf g hd).gc.monotone_l ((bucketsOf g hd).start_le_iff.1 hle)
    exact le_antisymm (hother t t' hall) (hother t' t fun b hb => (hall b hb).symm)

theorem floorsBoth_iff_notRaised (h : uniformPeriodMs g = some d) (hd : 0 < d) {t t' : Int64}
    (ht : Representable g hd t) (ht' : Representable g hd t') :
    FloorsBoth calendar g d t t' ↔ NotRaised g d t ∧ NotRaised g d t' := by
  have hiff : ∀ s, Representable g hd s → (Floors calendar g d s ↔ NotRaised g d s) := fun s hs => floors_iff_notRaised h hs
  rw [← hiff t ht, ← hiff t' ht']
  constructor
  · intro hboth
    exact ⟨hboth.floors, hboth.floors'⟩
  · rintro ⟨hfloors, hfloors'⟩
    have heq := (floors_iff_floor hd t).1 hfloors
    have heq' := (floors_iff_floor hd t').1 hfloors'
    refine ⟨hfloors, hfloors', bucketTimestamp_idempotent h ht hfloors, ?_, ?_⟩
    · intro hle
      rw [heq, heq']
      apply (bucketsOf g hd).gc.monotone_l
      exact (bucketsOf g hd).index_mono (Int64.le_iff_toInt_le.1 hle)
    · rw [heq, heq']
      exact floorMs_eq_iff hd _ _

theorem quarter_pos : (0 : ℤ) < 3 := by decide

theorem year_pos : (0 : ℤ) < 12 := by decide

/-- The calendar of whole months. -/
def civil : Calendar where
  bucketMonth ts := (Buckets.months 1 Int.one_pos).start ((Buckets.months 1 Int.one_pos).index ts.toInt)
  bucketQuarter ts := (Buckets.months 3 quarter_pos).start ((Buckets.months 3 quarter_pos).index ts.toInt)
  bucketYear ts := (Buckets.months 12 year_pos).start ((Buckets.months 12 year_pos).index ts.toInt)

/-- Weeks are rounded down before 1970 too, days where they are whole. -/
theorem floorsBoth_iff_notRaised_weeks :
    FloorsBoth civil (.simple "week") 604800000 (-1) 0 ∧ FloorsBoth civil (.simple "day") 86400000 (-86400000) 100000000 :=
  ⟨(floorsBoth_iff_notRaised rfl (by decide) (by decide) (by decide)).2 ⟨nofun, nofun⟩,
    (floorsBoth_iff_notRaised rfl (by decide) (by decide) (by decide)).2 ⟨fun _ => .inr (by decide), fun _ => .inl (by decide)⟩⟩

/-- The millisecond before 1970 is in the second after it. -/
theorem second_rounds_up : ¬Floors civil (.simple "second") 1000 (-1) := by
  rintro ⟨hle, -⟩
  revert hle
  decide

end FerroDruid.Query
