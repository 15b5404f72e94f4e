import FerroDruid.Lib.Float64
/-!
# Binary32 numbers

A binary32 number is the binary64 number of its value: one with a significand of
24 bits, no bit below 2 to the -149 and a magnitude below 2 to the 128.
-/

namespace FerroDruid.Lib.F64

/-- The exponent of the last bit that a binary32 number of this magnitude keeps. -/
def singleExponent (u : ℕ) : ℕ := max (u.log2 - 23) 925

def roundSingle (u : ℕ) : ℕ := roundHalfEven u (2 ^ singleExponent u) * 2 ^ singleExponent u

/-- `x as f32`. -/
def toSingle : F64 → F64
  | finite negative m =>
    if roundSingle (units m) < 2 ^ 128 * unitsOne then ofUnits negative (roundSingle (units m)) else infinite negative
  | x => x

/-- A rounding has no bit below its own last one, also where it carried into the
next exponent. -/
theorem singleExponent_dvd (u : ℕ) : 2 ^ singleExponent (roundSingle u) ∣ roundSingle u := by
  unfold roundSingle
  set e := singleExponent u with he
  set k := roundHalfEven u (2 ^ e) with hk
  rcases Nat.eq_zero_or_pos k with hzero | hpos
  · simp [hzero]
  have hlog : u.log2 + 1 ≤ 24 + e := by
    have : u.log2 - 23 ≤ e := le_max_left _ _
    omega
  have hle : k ≤ 2 ^ 24 := by
    have hlt : u < 2 ^ 24 * 2 ^ e := by
      rw [← pow_add]
      exact (Nat.lt_log2_self (n := u)).trans_le (Nat.pow_le_pow_right Nat.two_pos hlog)
    have hdiv : u / 2 ^ e < 2 ^ 24 := (Nat.div_lt_iff_lt_mul (Nat.two_pow_pos e)).2 hlt
    have := roundHalfEven_le u (2 ^ e)
    omega
  have hmin : 925 ≤ e := le_max_right _ _
  rcases Nat.lt_or_eq_of_le hle with hlt | heq
  · -- no carry: the exponent did not grow
    have hne : k * 2 ^ e ≠ 0 := Nat.mul_ne_zero (by omega) (Nat.two_pow_pos e).ne'
    have hsmall : (k * 2 ^ e).log2 < 24 + e := by
      rw [Nat.log2_lt hne, pow_add]
      exact Nat.mul_lt_mul_of_pos_right hlt (Nat.two_pow_pos e)
    have hexp : singleExponent (k * 2 ^ e) ≤ e := max_le (by omega) hmin
    exact (Nat.pow_dvd_pow 2 hexp).trans (Nat.dvd_mul_left _ _)
  · have hpow : k * 2 ^ e = 2 ^ (24 + e) := by rw [heq, pow_add]
    have hexp : singleExponent (k * 2 ^ e) ≤ 24 + e := by
      rw [hpow, singleExponent, Nat.log2_two_pow]
      exact max_le (by omega) (by omega)
    rw [hpow] at hexp ⊢
    exact Nat.pow_dvd_pow 2 hexp

theorem roundSingle_roundSingle (u : ℕ) : roundSingle (roundSingle u) = roundSingle u := by
  have h := singleExponent_dvd u
  rw [roundSingle, roundHalfEven_of_dvd (Nat.two_pow_pos _) h, Nat.div_mul_cancel h]

/-- A binary32 magnitude is a binary64 magnitude. -/
theorem units_roundSingle (u : ℕ) : units (roundBits (roundSingle u)) = roundSingle u := by
  apply units_roundBits
  have hexp : (roundSingle u).log2 - 52 ≤ singleExponent (roundSingle u) := by
    unfold singleExponent
    omega
  exact (Nat.pow_dvd_pow 2 hexp).trans (singleExponent_dvd u)

theorem roundBits_single_lt {u : ℕ} (h : u < 2 ^ 128 * unitsOne) : roundBits u < 2047 * 2 ^ 52 := by
  rw [unitsOne_eq, ← pow_add, show 128 + 1074 = 1149 + 53 from rfl] at h
  have := roundBits_le h
  omega

theorem toSingle_toSingle (x : F64) : toSingle (toSingle x) = toSingle x := by
  cases x with
  | finite negative m =>
    rw [toSingle]
    split_ifs with h
    · rw [ofUnits, dif_pos (roundBits_single_lt h)]
      rw [toSingle, units_roundSingle, roundSingle_roundSingle, if_pos h, ofUnits, dif_pos (roundBits_single_lt h)]
    · rfl
  | infinite negative => rfl
  | nan => rfl

end FerroDruid.Lib.F64
