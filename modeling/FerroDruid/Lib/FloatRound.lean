import FerroDruid.Lib.FloatProduct
import FerroDruid.Lib.JsonNumber
/-!
# Quotients of integers as floats

The nearest float of a ratio is off by one part in 2 to the 53 at most, so parts
of one small whole keep apart.
-/

namespace FerroDruid.Lib.F64

/-- What rounding adds or takes is half a unit at most. -/
theorem roundHalfEven_error (n : ℕ) {d : ℕ} (hd : 0 < d) : 2 * (roundHalfEven n d * d) ≤ 2 * n + d ∧ 2 * n ≤ 2 * (roundHalfEven n d * d) + d := by
  have hdiv := Nat.div_add_mod n d
  rw [Nat.mul_comm] at hdiv
  have hmod := Nat.mod_lt n hd
  unfold roundHalfEven
  split_ifs with hup
  · rw [Nat.add_mul, Nat.one_mul]
    omega
  · generalize n / d * d = p at *
    omega

section

variable {n d : ℕ} (h : 52 ≤ (n / d).log2)
include h

theorem ratio_bounds : 2 ^ 52 ≤ n / (d * 2 ^ ((n / d).log2 - 52)) ∧ n / (d * 2 ^ ((n / d).log2 - 52)) < 2 ^ 53 := by
  rw [← Nat.div_div_eq_div_mul]
  exact significand_bounds h

theorem units_roundRatio : units (roundRatio n d) = roundHalfEven n (d * 2 ^ ((n / d).log2 - 52)) * 2 ^ ((n / d).log2 - 52) := by
  obtain ⟨hlow, hhigh⟩ := ratio_bounds h
  have hle := roundHalfEven_le n (d * 2 ^ ((n / d).log2 - 52))
  have hge := le_roundHalfEven n (d * 2 ^ ((n / d).log2 - 52))
  exact units_scaled (by omega) (by omega)

/-- One part in 2 to the 53. -/
theorem roundRatio_error :
    2 ^ 53 * (units (roundRatio n d) * d) ≤ (2 ^ 53 + 1) * n ∧ (2 ^ 53 - 1) * n ≤ 2 ^ 53 * (units (roundRatio n d) * d) := by
  obtain ⟨hlow, -⟩ := ratio_bounds h
  have hpos : 0 < d * 2 ^ ((n / d).log2 - 52) := Nat.pos_of_ne_zero fun hzero => by
    rw [hzero, Nat.div_zero] at hlow
    omega
  rw [Nat.le_div_iff_mul_le hpos] at hlow
  have herror := roundHalfEven_error n hpos
  rw [units_roundRatio h]
  generalize roundHalfEven n (d * 2 ^ ((n / d).log2 - 52)) = s at *
  generalize 2 ^ ((n / d).log2 - 52) = scale at *
  have hcomm : s * (d * scale) = s * scale * d := by rw [Nat.mul_comm d, ← Nat.mul_assoc]
  omega

end

section

variable {a b n : ℕ}

theorem ratio_large (ha : 0 < a) (hn : 0 < n) (hle : n ≤ 2 ^ 52) : 52 ≤ (unitsOne * a * unitsOne / (unitsOne * n)).log2 := by
  have hone := unitsOne_pos
  have hdiv : unitsOne * a * unitsOne / (unitsOne * n) = unitsOne * a / n := by
    rw [Nat.mul_assoc, Nat.mul_div_mul_left _ _ hone, Nat.mul_comm a]
  have hlarge : 2 ^ 52 ≤ unitsOne * a / n := by
    rw [Nat.le_div_iff_mul_le hn]
    calc 2 ^ 52 * n ≤ 2 ^ 52 * 2 ^ 52 := Nat.mul_le_mul_left _ hle
      _ ≤ unitsOne := by
        rw [unitsOne_eq, ← pow_add]
        exact Nat.pow_le_pow_right (by omega) (by omega)
      _ ≤ unitsOne * a := Nat.le_mul_of_pos_right _ ha
  rw [hdiv, Nat.le_log2 (by omega)]
  exact hlarge

theorem roundRatio_zero (d : ℕ) : roundRatio 0 d = 0 := by
  rw [roundRatio, Nat.zero_div]
  simp [roundHalfEven]

theorem roundRatio_ne_of_lt (hb : b ≤ n) (hle : n ≤ 2 ^ 52) (hab : a < b) :
    roundRatio (unitsOne * a * unitsOne) (unitsOne * n) ≠ roundRatio (unitsOne * b * unitsOne) (unitsOne * n) := by
  intro heq
  have hone := unitsOne_pos
  have hupper := (roundRatio_error (ratio_large (n := n) (show 0 < b by omega) (by omega) hle)).2
  rw [← heq] at hupper
  have hcommon : ∀ c, unitsOne * c * unitsOne = unitsOne * unitsOne * c := fun c => by rw [Nat.mul_right_comm]
  have hsquare : 0 < unitsOne * unitsOne := Nat.mul_pos hone hone
  rcases Nat.eq_zero_or_pos a with rfl | ha
  · rw [Nat.mul_zero, Nat.zero_mul, roundRatio_zero, show units 0 = 0 from rfl, Nat.zero_mul, Nat.mul_zero, hcommon] at hupper
    have := Nat.mul_pos (show 0 < 2 ^ 53 - 1 by omega) (Nat.mul_pos hsquare (show 0 < b by omega))
    omega
  · have hlower := (roundRatio_error (ratio_large (n := n) ha (by omega) hle)).1
    have hboth := hupper.trans hlower
    rw [hcommon, hcommon, Nat.mul_left_comm, Nat.mul_left_comm (2 ^ 53 + 1)] at hboth
    have hcancel := Nat.le_of_mul_le_mul_left hboth hsquare
    omega

/-- Parts of one whole have quotients of their own. -/
theorem roundRatio_inj (ha : a ≤ n) (hb : b ≤ n) (hle : n ≤ 2 ^ 52)
    (h : roundRatio (unitsOne * a * unitsOne) (unitsOne * n) = roundRatio (unitsOne * b * unitsOne) (unitsOne * n)) : a = b := by
  rcases Nat.lt_trichotomy a b with hab | hab | hab
  · exact absurd h (roundRatio_ne_of_lt hb hle hab)
  · exact hab
  · exact absurd h.symm (roundRatio_ne_of_lt ha hle hab)

theorem log2_le_of_le {m e : ℕ} (hne : m ≠ 0) (h : m ≤ 2 ^ e) : m.log2 ≤ e :=
  Nat.le_of_lt_succ ((Nat.log2_lt hne).2 (h.trans_lt (Nat.pow_lt_pow_right (by omega) (Nat.lt_succ_self e))))

/-- A part of a whole is finite. -/
theorem roundRatio_lt (ha : a ≤ n) (hn : 0 < n) (hle : n ≤ 2 ^ 52) : roundRatio (unitsOne * a * unitsOne) (unitsOne * n) < 2047 * 2 ^ 52 := by
  rcases Nat.eq_zero_or_pos a with rfl | hpos
  · rw [Nat.mul_zero, Nat.zero_mul, roundRatio_zero]
    omega
  have hlarge := ratio_large hpos hn hle
  have hratio := (ratio_bounds hlarge).2
  have hround := roundHalfEven_le (unitsOne * a * unitsOne) (unitsOne * n * 2 ^ ((unitsOne * a * unitsOne / (unitsOne * n)).log2 - 52))
  have hlog : (unitsOne * a * unitsOne / (unitsOne * n)).log2 ≤ 1074 := by
    have hdiv : unitsOne * a * unitsOne / (unitsOne * n) ≤ unitsOne := by
      rw [Nat.mul_assoc, Nat.mul_div_mul_left _ _ unitsOne_pos]
      exact Nat.div_le_of_le_mul (Nat.mul_le_mul_right _ ha)
    have hne : unitsOne * a * unitsOne / (unitsOne * n) ≠ 0 := fun hzero => by
      rw [hzero] at hlarge
      simp at hlarge
    exact log2_le_of_le hne (hdiv.trans_eq unitsOne_eq)
  unfold roundRatio
  omega

end

/-! ## Floats as unsigned integers

Rounding to integers, and casts that saturate. A product or a quotient of bounded
magnitudes is bounded, however it is rounded. -/

/-- `f64::ceil` -/
def ceil : F64 → F64
  | finite a m =>
    if units m % unitsOne = 0 then finite a m
    else if a then ofUnits true (unitsOne * (units m / unitsOne)) else ofUnits false (unitsOne * (units m / unitsOne + 1))
  | x => x

/-- `f64::round`: halves go away from zero. -/
def round : F64 → F64
  | finite a m => ofUnits a (unitsOne * ((2 * units m + unitsOne) / (2 * unitsOne)))
  | x => x

/-- `f64::max`: a NaN gives way. -/
def max (x y : F64) : F64 := if x.isNan then y else if y.isNan then x else if lt x y then y else x

/-- A cast to an unsigned type of `w` bits: saturating, and zero for a NaN. -/
def toUnsigned (w : ℕ) : F64 → ℕ
  | finite a m => if a then 0 else min (units m / unitsOne) (2 ^ w - 1)
  | infinite a => if a then 0 else 2 ^ w - 1
  | nan => 0

/-! ## Bounded magnitudes -/

/-- Finite and not negative, with so many units at most. -/
def AtMost (x : F64) (u : ℕ) : Prop := ∃ m : Fin (2047 * 2 ^ 52), x = finite false m ∧ units m ≤ u

variable {x y : F64} {u v n d : ℕ} {e : ℕ}

theorem log2_le_of_lt {n : ℕ} (h : n < 2 ^ (e + 1)) : n.log2 ≤ e := by
  rcases Nat.eq_zero_or_pos n with rfl | hpos
  · simp
  · exact Nat.le_of_lt_succ ((Nat.log2_lt hpos.ne').2 h)

/-- Rounding crosses one power of two at most. -/
theorem roundRatio_le (he : 52 ≤ e) (h : n / d < 2 ^ (e + 1)) : roundRatio n d ≤ 2 ^ 52 * (e - 50) := by
  have hlog : (n / d).log2 ≤ e := log2_le_of_lt h
  have hround := roundHalfEven_le n (d * 2 ^ ((n / d).log2 - 52))
  have hsignificand : n / (d * 2 ^ ((n / d).log2 - 52)) < 2 ^ 53 := by
    rw [← Nat.div_div_eq_div_mul, Nat.div_lt_iff_lt_mul (by positivity), ← pow_add]
    rcases Nat.eq_zero_or_pos (n / d) with hzero | hpos
    · rw [hzero]
      positivity
    · refine ((Nat.log2_lt hpos.ne').1 (Nat.lt_succ_self _)).trans_le (Nat.pow_le_pow_right (by decide) ?_)
      omega
  unfold roundRatio
  omega

theorem units_two_pow : units (2 ^ 52 * (e + 1)) = 2 ^ 52 * 2 ^ e := by
  unfold units
  rw [if_neg (by omega), Nat.mul_div_cancel_left _ (by decide), Nat.mul_mod_right, Nat.add_zero, Nat.add_sub_cancel]

theorem ofRatio_atMost (he : 52 ≤ e) (hfinite : e < 2000) (h : n / d < 2 ^ (e + 1)) : (ofRatio false n d).AtMost (2 ^ (e + 1)) := by
  have hle := roundRatio_le he h
  have hlt : roundRatio n d < 2047 * 2 ^ 52 := by omega
  refine ⟨⟨roundRatio n d, hlt⟩, dif_pos hlt, (units_mono hle).trans ?_⟩
  obtain ⟨k, rfl⟩ := Nat.exists_eq_add_of_le he
  rw [show 52 + k - 50 = k + 1 + 1 by omega, units_two_pow, ← pow_add]
  exact Nat.pow_le_pow_right (by decide) (by omega)

theorem toUnsigned_ceil_le {w k : ℕ} (hk : k ≤ 2 ^ 53) (h : x.AtMost (unitsOne * k)) : x.ceil.toUnsigned w ≤ k := by
  obtain ⟨m, rfl, hm⟩ := h
  have hdiv : units m / unitsOne ≤ k := Nat.div_le_of_le_mul hm
  unfold ceil
  dsimp only
  rw [if_neg Bool.false_ne_true]
  split_ifs with hwhole
  · exact (Nat.min_le_left _ _).trans hdiv
  · -- there is a fraction, so the next integer is still within the bound
    have hne : units m / unitsOne ≠ k := by
      intro heq
      have hsplit := Nat.div_add_mod (units m) unitsOne
      rw [heq] at hsplit
      omega
    have hsmall : units m / unitsOne + 1 ≤ 2 ^ 53 := by omega
    have hlt := roundBits_int (show units m / unitsOne + 1 < 2 ^ 64 by omega)
    rw [ofUnits, dif_pos hlt]
    simp only [toUnsigned, Bool.false_eq_true, if_false, units_ofInt hsmall]
    rw [Nat.mul_div_cancel_left _ unitsOne_pos]
    omega

theorem ofInt_natCast {k : ℕ} (h : k < 2 ^ 64) : ofInt k = finite false ⟨roundBits (unitsOne * k), roundBits_int h⟩ := by
  rw [ofInt_eq (n := k) (by omega)]
  rfl

/-- A maximum is at least its second argument. -/
theorem le_toUnsigned_max {w k : ℕ} (hk : k ≤ 2 ^ 53) (hw : k ≤ 2 ^ w - 1) (x : F64) : k ≤ (max x (ofInt k)).toUnsigned w := by
  have hint := ofInt_natCast (show k < 2 ^ 64 by omega)
  have hself : k ≤ (ofInt (k : ℤ)).toUnsigned w := by
    rw [hint]
    simp only [toUnsigned, Bool.false_eq_true, if_false, units_ofInt hk]
    rw [Nat.mul_div_cancel_left _ unitsOne_pos]
    exact le_min le_rfl hw
  unfold max
  split_ifs with hnan hnan' hlt
  · exact hself
  · rw [hint] at hnan'
    cases hnan'
  · exact hself
  · cases x with
    | nan => exact absurd rfl hnan
    | infinite a =>
      cases a with
      | true =>
        rw [hint] at hlt
        simp only [lt, rank, decide_eq_true_eq, not_lt, signed, if_true, Bool.false_eq_true, if_false] at hlt
        omega
      | false => exact hw
    | finite a m =>
      rw [hint] at hlt
      simp only [lt, rank, decide_eq_true_eq, not_lt] at hlt
      cases a with
      | true =>
        have hzero : roundBits (unitsOne * k) = 0 := by
          simp only [signed, if_true, Bool.false_eq_true, if_false] at hlt
          omega
        have hunits := units_ofInt hk
        rw [hzero] at hunits
        have hk0 : unitsOne * k = 0 := hunits.symm
        have := (Nat.mul_eq_zero.1 hk0).resolve_left unitsOne_pos.ne'
        omega
      | false =>
        have hle : roundBits (unitsOne * k) ≤ m := by
          simp only [signed, Bool.false_eq_true, if_false] at hlt
          omega
        have hunits := units_mono hle
        rw [units_ofInt hk] at hunits
        exact le_min ((Nat.le_div_iff_mul_le unitsOne_pos).2 (by rwa [Nat.mul_comm])) hw

end FerroDruid.Lib.F64
