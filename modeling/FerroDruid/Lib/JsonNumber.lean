import FerroDruid.Lib.FloatOrder
import FerroDruid.Lib.Json
/-!
# The numbers of JSON

What a number is exactly, and as a float. A float is the rounding of what it is
exactly, so numbers and their floats are in the same order.
-/

namespace FerroDruid.Lib

namespace F64

/-- The nearest value of a float. -/
def rounded (u : ℤ) : ℤ := signed (decide (u < 0)) (units (roundBits u.natAbs))

theorem rounded_mono {u v : ℤ} (h : u ≤ v) : rounded u ≤ rounded v := by
  unfold rounded signed
  by_cases hu : u < 0 <;> by_cases hv : v < 0 <;> simp only [hu, hv, decide_true, decide_false, if_true, if_false, Bool.false_eq_true]
  · have hmono := units_mono (roundBits_mono (show v.natAbs ≤ u.natAbs by omega))
    omega
  · omega
  · omega
  · have hmono := units_mono (roundBits_mono (show u.natAbs ≤ v.natAbs by omega))
    omega

theorem rounded_exact (x : F64) : rounded x.exact = x.exact := by
  have hzero : units (roundBits 0) = 0 := by rw [roundBits_eq_zero.2 rfl]; rfl
  cases x with
  | finite a m =>
    rw [rounded, natAbs_exact, roundBits_units, exact]
    cases a with
    | true =>
      rcases Nat.eq_zero_or_pos (units m) with hunits | hpos
      · simp [signed, hunits]
      · rw [decide_eq_true (by simp [signed]; omega)]
    | false => rw [decide_eq_false (by simp [signed])]
  | infinite a => simp [rounded, exact, signed, hzero]
  | nan => simp [rounded, exact, signed, hzero]

theorem rounded_int {n : ℤ} (h : n.natAbs < 2 ^ 64) : rounded (unitsOne * n) = (ofInt n).exact := by
  have hsign : decide ((unitsOne : ℤ) * n < 0) = decide (n < 0) := by
    have hpos : (0 : ℤ) < unitsOne := Int.natCast_pos.2 unitsOne_pos
    rw [decide_eq_decide, Int.mul_neg_iff]
    omega
  rw [ofInt_eq h, exact, rounded, hsign, Int.natAbs_mul, Int.natAbs_natCast]

/-- The bits of a significand at its scale, which rounding may have brought to
the next one. -/
theorem units_scaled {s e : ℕ} (hlow : 2 ^ 52 ≤ s) (hhigh : s ≤ 2 ^ 53) : units (2 ^ 52 * e + s) = s * 2 ^ e := by
  unfold units
  rw [if_neg (by omega)]
  rcases Nat.lt_or_ge s (2 ^ 53) with hs | hs
  · have hdiv : (2 ^ 52 * e + s) / 2 ^ 52 = e + 1 := by omega
    have hmod : 2 ^ 52 + (2 ^ 52 * e + s) % 2 ^ 52 = s := by omega
    rw [hdiv, hmod, Nat.add_sub_cancel]
  · obtain rfl : s = 2 ^ 53 := by omega
    have hdiv : (2 ^ 52 * e + 2 ^ 53) / 2 ^ 52 = e + 2 := by omega
    have hmod : 2 ^ 52 + (2 ^ 52 * e + 2 ^ 53) % 2 ^ 52 = 2 ^ 52 := by omega
    rw [hdiv, hmod, show e + 2 - 1 = e + 1 by omega, pow_succ 2 e, Nat.mul_comm (2 ^ e), ← Nat.mul_assoc, ← pow_succ]

/-- From 2 to the 52 on, the nearest value is a significand at its scale. -/
theorem units_roundBits_large {u : ℕ} (h : 52 ≤ u.log2) :
    units (roundBits u) = roundHalfEven u (2 ^ (u.log2 - 52)) * 2 ^ (u.log2 - 52) := by
  obtain ⟨hlow, hhigh⟩ := significand_bounds h
  have hle := roundHalfEven_le u (2 ^ (u.log2 - 52))
  have hge := le_roundHalfEven u (2 ^ (u.log2 - 52))
  exact units_scaled (by omega) (by omega)

theorem unitsOne_dvd (k : ℕ) : unitsOne ∣ units (roundBits (unitsOne * k)) := by
  rcases Nat.lt_or_ge (2 ^ 53) k with hlarge | hsmall
  · have hlog : 1074 ≤ (unitsOne * k).log2 - 52 := by
      apply Nat.le_sub_of_add_le
      rw [Nat.le_log2 (Nat.mul_pos unitsOne_pos (by omega)).ne', Nat.pow_add, ← unitsOne_eq]
      exact Nat.mul_le_mul_left _ (by omega)
    rw [units_roundBits_large (by omega)]
    nth_rewrite 1 [unitsOne_eq]
    exact Dvd.dvd.mul_left (Nat.pow_dvd_pow 2 hlog) _
  · rw [units_ofInt hsmall]
    exact Nat.dvd_mul_right _ _

/-- The float of an integer is whole. -/
theorem trunc_ofInt_large {n : ℤ} (h : n.natAbs < 2 ^ 64) : trunc (ofInt n) = ofInt n := by
  rw [ofInt_eq h, trunc]
  simp only [Nat.mul_div_cancel' (unitsOne_dvd n.natAbs), ofUnits, roundBits_units]
  rw [dif_pos (roundBits_int h)]

theorem toI64_of_exact {x y : F64} (hx : x.isFinite = true) (hy : y.isFinite = true) (h : x.exact = y.exact) : x.toI64 = y.toI64 := by
  have hdiv : ∀ (a : Bool) (m : Fin (2047 * 2 ^ 52)), signed a (units m / unitsOne) = (finite a m).exact.tdiv unitsOne := by
    intro a m
    cases a <;> simp [signed, exact]
  cases x with
  | finite a m =>
    cases y with
    | finite b n =>
      show Int64.ofInt _ = Int64.ofInt _
      rw [hdiv, hdiv, h]
    | infinite b => cases hy
    | nan => cases hy
  | infinite a => cases hx
  | nan => cases hx

end F64

namespace JsonNumber

/-- In units of the least positive float. -/
def units : JsonNumber → ℤ
  | int n _ => F64.unitsOne * n
  | float x _ => x.exact

/-- `as_f64`. -/
def toFloat : JsonNumber → F64
  | int n _ => .ofInt n
  | float x _ => x

variable (n : JsonNumber)

theorem isFinite_toFloat : n.toFloat.isFinite = true := by
  cases n with
  | int n range => exact F64.isFinite_ofInt (by omega)
  | float x finite => exact finite

theorem exact_toFloat : n.toFloat.exact = F64.rounded n.units := by
  cases n with
  | int n range => exact (F64.rounded_int (by omega)).symm
  | float x finite => exact (F64.rounded_exact x).symm

/-- A number and its float lie on the same side of what is below 2 to the 53. -/
theorem toFloat_side {t : ℤ} (ht : t.natAbs < F64.unitsOne * 2 ^ 53) :
    (n.toFloat.exact < t ↔ n.units < t) ∧ (t < n.toFloat.exact ↔ t < n.units) := by
  cases n with
  | int n range => exact F64.exact_ofInt_lt_iff (by omega) ht
  | float x finite => exact ⟨Iff.rfl, Iff.rfl⟩

end JsonNumber

namespace Json

def plainNumber : Json → Option JsonNumber
  | number n => some n
  | _ => none

theorem asF64_eq (value : Json) : value.asF64 = value.plainNumber.map JsonNumber.toFloat := by
  cases value with
  | number n => cases n <;> rfl
  | _ => rfl

end Json

end FerroDruid.Lib
