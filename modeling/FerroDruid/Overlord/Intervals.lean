import FerroDruid.Lib.Calendar
import FerroDruid.Lib.Numeral
/-!
# Interval bounds as text

`format_epoch_millis_iso` and `parse_interval_bound_millis` of
`ferrodruid-overlord/src/lib.rs`: bounds of segments and locks are stored as text.

The formatter writes any instant, a year beyond 9999 with a sign and what the
calendar does not reach as a bare integer; the parser reads years of four digits.
-/

namespace FerroDruid.Overlord

open Lib Calendar List

/-! ## `chrono` -/

/-- What is asked of `chrono`: the fields of an instant, midnight on the first of a
month, an RFC 3339 text, and a `%Y-%m-%d` date at midnight. -/
structure Chrono where
  fields : Int64 → Option Fields
  midnight : ℤ → ℤ → Option Int64
  parseRfc3339 : Bytes → Except Bytes Int64
  parseDate : Bytes → Option Int64

/-- At least so many digits. -/
def pad (width n : ℕ) : Bytes := (decimal n).leftpad width 0x30

def dateText (year month day : ℤ) : Bytes := pad 4 year.toNat ++ 0x2D :: (pad 2 month.toNat ++ 0x2D :: pad 2 day.toNat)

def timeText (f : Fields) : Bytes :=
  pad 2 f.hour.toNat ++ 0x3A :: (pad 2 f.minute.toNat ++ 0x3A :: (pad 2 f.second.toNat ++ 0x2E :: (pad 3 f.milli.toNat ++ [0x5A])))

/-- `%Y-%m-%dT%H:%M:%S%.3fZ`; a year outside 0 to 9999 has a sign. -/
def isoText (f : Fields) : Bytes :=
  let text := dateText |f.year| f.month f.day ++ 0x54 :: timeText f
  if f.year < 0 then 0x2D :: text else if 9999 < f.year then 0x2B :: text else text

/-- How an RFC 3339 text starts. -/
def StartsWithYear (s : Bytes) : Prop := ∃ a b c d rest, s = a :: b :: c :: d :: 0x2D :: rest ∧ ∀ x ∈ [a, b, c, d], isDigit x = true

/-- What the code relies on: the proleptic Gregorian calendar, at least for the
years 0 to 9999, that RFC 3339 writes with four digits; and a date has no time. -/
structure LawfulChrono (chrono : Chrono) : Prop where
  fields : ∀ t f, chrono.fields t = some f → f = Calendar.fields t.toInt
  common : ∀ t : Int64, firstCommon ≤ t.toInt → t.toInt ≤ lastCommon → chrono.fields t ≠ none
  midnight : ∀ year month t, chrono.midnight year month = some t → t.toInt = monthMillis (12 * year + month - 1)
  rfc3339 : ∀ f : Fields, f.Valid → 0 ≤ f.year → f.year ≤ 9999 →
    chrono.parseRfc3339 (dateText f.year f.month f.day ++ 0x54 :: timeText f) = .ok (Int64.ofInt f.millis)
  rfc3339Year : ∀ s t, chrono.parseRfc3339 s = .ok t → StartsWithYear s
  date : ∀ s t, chrono.parseDate s = some t → 0x2D ∈ s.tail ∧ 0x54 ∉ s

/-! ## The code -/

def formatEpochMillisIso (chrono : Chrono) (millis : Int64) : Bytes :=
  match chrono.fields millis with
  | none => decimalInt millis.toInt
  | some f => isoText f

/-- The message of a bound that cannot be read. -/
def notABound (s : Bytes) : Bytes := ascii "not an RFC3339 timestamp or YYYY-MM-DD date: " ++ s

def parseIntervalBoundMillis (chrono : Chrono) (s : Bytes) : Except Bytes Int64 :=
  match chrono.parseRfc3339 s with
  | .ok t => .ok t
  | .error _ =>
    match chrono.parseDate s with
    | some t => .ok t
    | none => .error (notABound s)

/-! ## Reading back -/

/-- An instant of the years 0 to 9999. -/
def InCommonYears (t : Int64) : Prop := firstCommon ≤ t.toInt ∧ t.toInt ≤ lastCommon

instance (t : Int64) : Decidable (InCommonYears t) := inferInstanceAs (Decidable (_ ∧ _))

variable {n : ℕ}

theorem digit_of_mem_pad {width : ℕ} {b : UInt8} (h : b ∈ pad width n) : isDigit b = true := by
  rw [pad, List.leftpad, mem_append] at h
  rcases h with hzero | hdigit
  · rw [eq_of_mem_replicate hzero]
    rfl
  · exact isDigit_of_mem_decimal hdigit

variable {s : Bytes}

theorem not_startsWithYear_cons {b : UInt8} (h : isDigit b = false) : ¬ StartsWithYear (b :: s) := by
  rintro ⟨a, b', c, d, rest, heq, hdigits⟩
  obtain ⟨rfl, -⟩ := List.cons.inj heq
  rw [hdigits b (mem_cons_self ..)] at h
  cases h

theorem not_startsWithYear_of_not_mem (h : 0x2D ∉ s.tail) : ¬ StartsWithYear s := by
  rintro ⟨a, b, c, d, rest, rfl, -⟩
  exact h (by simp)

theorem dash_not_mem_tail_decimalInt (n : ℤ) : (0x2D : UInt8) ∉ (decimalInt n).tail := by
  have hdash : (0x2D : UInt8) ∉ decimal n.natAbs := fun hmem => absurd (isDigit_of_mem_decimal hmem) (by decide)
  unfold decimalInt
  split_ifs
  · exact hdash
  · exact fun hmem => hdash (mem_of_mem_tail hmem)

/-- The text of an instant has a time, and a year with a sign is not of RFC 3339. -/
theorem time_mem_isoText (f : Fields) : (0x54 : UInt8) ∈ isoText f := by
  unfold isoText
  split_ifs <;> simp

variable {f : Fields}

theorem not_startsWithYear_isoText (h : ¬ (0 ≤ f.year ∧ f.year ≤ 9999)) : ¬ StartsWithYear (isoText f) := by
  unfold isoText
  split_ifs
  · exact not_startsWithYear_cons (by decide)
  · exact not_startsWithYear_cons (by decide)
  · omega

section

variable {chrono : Chrono} (h : LawfulChrono chrono)
include h

variable {t : Int64}

theorem parse_isoText (ht : InCommonYears t) : chrono.parseRfc3339 (isoText (Calendar.fields t.toInt)) = .ok t := by
  obtain ⟨hlow, hhigh⟩ := (year_common_iff t.toInt).2 ht
  have hread := h.rfc3339 (Calendar.fields t.toInt) (valid_fields t.toInt) hlow hhigh
  rw [millis_fields, Int64.ofInt_toInt] at hread
  unfold isoText
  rw [if_neg (by omega), if_neg (by omega), abs_of_nonneg hlow]
  exact hread

theorem parse_eq_error {s : Bytes} (hyear : ¬ StartsWithYear s) (hdate : 0x2D ∉ s.tail ∨ 0x54 ∈ s) :
    parseIntervalBoundMillis chrono s = .error (notABound s) := by
  unfold parseIntervalBoundMillis
  cases hread : chrono.parseRfc3339 s with
  | ok t => exact absurd (h.rfc3339Year s t hread) hyear
  | error e =>
    cases hday : chrono.parseDate s with
    | some t =>
      obtain ⟨hdash, htime⟩ := h.date s t hday
      exact (hdate.elim (fun hno => hno hdash) htime).elim
    | none => rfl

/-- What the formatter writes for an instant of other years is not read. -/
theorem parse_format_eq_error (ht : ¬ InCommonYears t) :
    parseIntervalBoundMillis chrono (formatEpochMillisIso chrono t) = .error (notABound (formatEpochMillisIso chrono t)) := by
  unfold formatEpochMillisIso
  cases hfields : chrono.fields t with
  | none =>
    have hdash := dash_not_mem_tail_decimalInt t.toInt
    exact parse_eq_error h (not_startsWithYear_of_not_mem hdash) (.inl hdash)
  | some f =>
    obtain rfl := h.fields t f hfields
    exact parse_eq_error h (not_startsWithYear_isoText (mt (year_common_iff t.toInt).1 ht)) (.inr (time_mem_isoText _))

theorem rfc3339_format (ht : InCommonYears t) : chrono.parseRfc3339 (formatEpochMillisIso chrono t) = .ok t := by
  unfold formatEpochMillisIso
  cases hfields : chrono.fields t with
  | none => exact absurd hfields (h.common t ht.1 ht.2)
  | some f =>
    obtain rfl := h.fields t f hfields
    exact parse_isoText h ht

theorem parse_format (ht : InCommonYears t) : parseIntervalBoundMillis chrono (formatEpochMillisIso chrono t) = .ok t := by
  unfold parseIntervalBoundMillis
  rw [rfc3339_format h ht]

/-- A bound is read back if and only if it is an instant of the years 0 to 9999. -/
theorem parse_format_iff (t : Int64) : parseIntervalBoundMillis chrono (formatEpochMillisIso chrono t) = .ok t ↔ InCommonYears t := by
  refine ⟨fun hread => ?_, parse_format h⟩
  by_contra ht
  rw [parse_format_eq_error h ht] at hread
  cases hread

end

/-! ## The texts that are written -/

/-- The number of some digits. -/
def readDigits (s : Bytes) : Option ℤ := if s ≠ [] ∧ ∀ b ∈ s, isDigit b = true then some (numeralValue s) else none

/-- The text of an instant as it is written for the years 0 to 9999. -/
def readInstant : Bytes → Option Fields
  | [y1, y2, y3, y4, 0x2D, m1, m2, 0x2D, d1, d2, 0x54, h1, h2, 0x3A, n1, n2, 0x3A, s1, s2, 0x2E, l1, l2, l3, 0x5A] => do
    some ⟨← readDigits [y1, y2, y3, y4], ← readDigits [m1, m2], ← readDigits [d1, d2], ← readDigits [h1, h2], ← readDigits [n1, n2],
      ← readDigits [s1, s2], ← readDigits [l1, l2, l3]⟩
  | _ => none

/-- `chrono`, on the texts that are written. -/
def gregorian : Chrono where
  fields t := if monthMillis (12 * -262143) ≤ t.toInt ∧ t.toInt < monthMillis (12 * 262143) then some (Calendar.fields t.toInt) else none
  midnight year month :=
    if -262143 ≤ year ∧ year < 262143 ∧ 1 ≤ month ∧ month ≤ 12 then some (Int64.ofInt (monthMillis (12 * year + month - 1))) else none
  parseRfc3339 s :=
    match readInstant s with
    | some f => if f.Valid then .ok (Int64.ofInt f.millis) else .error (ascii "input is out of range")
    | none => .error (ascii "input contains invalid characters")
  parseDate _ := none

theorem length_pad {width : ℕ} (hpos : 0 < width) (h : n < 10 ^ width) : (pad width n).length = width := by
  have hle : (Nat.toDigits 10 n).length ≤ width := (Nat.length_toDigits_le_iff (by omega) hpos).2 h
  rw [pad, length_leftpad, decimal, length_map]
  exact Nat.max_eq_left hle

theorem readDigits_pad (width n : ℕ) : readDigits (pad width n) = some (n : ℤ) := by
  have hne : pad width n ≠ [] := append_ne_nil_of_right_ne_nil _ (decimal_ne_nil n)
  have hvalue : numeralValue (pad width n) = n := by
    rw [pad, List.leftpad, numeralValue, foldl_append]
    have hzeros : ∀ k : ℕ, (List.replicate k (0x30 : UInt8)).foldl (fun n b => 10 * n + digitValue b) 0 = 0 := by
      intro k
      induction k with
      | zero => rfl
      | succ k ih =>
        exact ih
    rw [hzeros]
    exact foldl_decimal n
  rw [readDigits, if_pos ⟨hne, fun b hb => digit_of_mem_pad hb⟩, hvalue]

theorem exists_pad_two (h : n < 100) : ∃ a b, pad 2 n = [a, b] := by
  have hlen : (pad 2 n).length = 2 := length_pad (by decide) h
  exact length_eq_two.1 hlen

theorem exists_pad_three (h : n < 1000) : ∃ a b c, pad 3 n = [a, b, c] := by
  have hlen : (pad 3 n).length = 3 := length_pad (by decide) h
  exact length_eq_three.1 hlen

theorem exists_pad_four (h : n < 10000) : ∃ a b c d, pad 4 n = [a, b, c, d] := by
  have hlen : (pad 4 n).length = 4 := length_pad (by decide) h
  match pad 4 n, hlen with
  | [a, b, c, d], _ => exact ⟨a, b, c, d, rfl⟩

theorem readDigits_toNat (width : ℕ) {v : ℤ} (h : 0 ≤ v) : readDigits (pad width v.toNat) = some v := by
  rw [readDigits_pad, Int.toNat_of_nonneg h]

theorem readInstant_text (hvalid : f.Valid) (hlow : 0 ≤ f.year) (hhigh : f.year ≤ 9999) :
    readInstant (dateText f.year f.month f.day ++ 0x54 :: timeText f) = some f := by
  obtain ⟨hmonth, hday, hhour, hminute, hsecond, hmilli⟩ := hvalid
  have hdays := (monthStart_succ f.monthIndex).2
  obtain ⟨y1, y2, y3, y4, hy⟩ := exists_pad_four (show f.year.toNat < 10000 by omega)
  obtain ⟨m1, m2, hm⟩ := exists_pad_two (show f.month.toNat < 100 by omega)
  obtain ⟨d1, d2, hd⟩ := exists_pad_two (show f.day.toNat < 100 by omega)
  obtain ⟨h1, h2, hh⟩ := exists_pad_two (show f.hour.toNat < 100 by omega)
  obtain ⟨n1, n2, hn⟩ := exists_pad_two (show f.minute.toNat < 100 by omega)
  obtain ⟨s1, s2, hs⟩ := exists_pad_two (show f.second.toNat < 100 by omega)
  obtain ⟨l1, l2, l3, hl⟩ := exists_pad_three (show f.milli.toNat < 1000 by omega)
  unfold dateText timeText
  rw [hy, hm, hd, hh, hn, hs, hl]
  show (do
    some (⟨← readDigits [y1, y2, y3, y4], ← readDigits [m1, m2], ← readDigits [d1, d2], ← readDigits [h1, h2], ← readDigits [n1, n2],
      ← readDigits [s1, s2], ← readDigits [l1, l2, l3]⟩ : Fields)) = some f
  rw [← hy, ← hm, ← hd, ← hh, ← hn, ← hs, ← hl, readDigits_toNat 4 hlow, readDigits_toNat 2 (by omega), readDigits_toNat 2 (by omega),
    readDigits_toNat 2 hhour.1, readDigits_toNat 2 hminute.1, readDigits_toNat 2 hsecond.1, readDigits_toNat 3 hmilli.1]
  rfl

theorem startsWithYear_of_readInstant (h : readInstant s = some f) : StartsWithYear s := by
  unfold readInstant at h
  split at h
  · rename_i y1 y2 y3 y4 m1 m2 d1 d2 h1 h2 n1 n2 s1 s2 l1 l2 l3
    obtain ⟨year, hyear, -⟩ := Option.bind_eq_some_iff.1 h
    refine ⟨y1, y2, y3, y4, _, rfl, ?_⟩
    unfold readDigits at hyear
    split_ifs at hyear with hdigits
    exact hdigits.2
  · cases h

theorem lawful_gregorian : LawfulChrono gregorian where
  fields t f h := by
    unfold gregorian at h
    dsimp only at h
    split_ifs at h
    exact (Option.some.inj h).symm
  common t hlow hhigh := by
    have hfirst : monthMillis (12 * -262143) ≤ firstCommon := by decide
    have hlast : lastCommon < monthMillis (12 * 262143) := by decide
    unfold gregorian
    dsimp only
    rw [if_pos ⟨hfirst.trans hlow, hhigh.trans_lt hlast⟩]
    exact Option.some_ne_none _
  midnight year month t h := by
    unfold gregorian at h
    dsimp only at h
    split_ifs at h with hrange
    rw [← Option.some.inj h]
    have hfirst := monthMillis_strictMono.monotone (show 12 * -262143 ≤ 12 * year + month - 1 by omega)
    have hlast := monthMillis_strictMono (show 12 * year + month - 1 < 12 * 262143 by omega)
    have hmin : -2 ^ 63 ≤ monthMillis (12 * -262143) := by decide
    have hmax : monthMillis (12 * 262143) < 2 ^ 63 := by decide
    exact Int64.toInt_ofInt_of_le (by omega) (by omega)
  rfc3339 f hvalid hlow hhigh := by
    unfold gregorian
    dsimp only
    rw [readInstant_text hvalid hlow hhigh]
    exact if_pos hvalid
  rfc3339Year s t h := by
    unfold gregorian at h
    dsimp only at h
    split at h
    · exact startsWithYear_of_readInstant ‹_›
    · cases h
  date s t h := by cases h

end FerroDruid.Overlord
