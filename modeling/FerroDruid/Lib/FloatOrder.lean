import FerroDruid.Lib.Float64
import Mathlib.Tactic.Linarith
/-!
# The exact values of floats

Floats compare as their exact values do. A step of half a unit in the last place
or less from a whole number rounds back to it, ties to even.
-/

namespace FerroDruid.Lib

namespace F64

/-! ## Rounding -/

theorem roundHalfEven_add {d m h : ℕ} (hh : 2 * h < d ∨ (2 * h = d ∧ m % 2 = 0)) (hpos : 0 < h) : roundHalfEven (d * m + h) d = m := by
  have hlt : h < d := by omega
  have hdiv : (d * m + h) / d = m := by
    rw [Nat.mul_add_div (by omega), Nat.div_eq_of_lt hlt, Nat.add_zero]
  have hmod : (d * m + h) % d = h := by rw [Nat.mul_add_mod, Nat.mod_eq_of_lt hlt]
  unfold roundHalfEven
  rw [hdiv, hmod, if_neg (by omega)]

theorem roundHalfEven_sub {d m h : ℕ} (hh : 2 * h < d ∨ (2 * h = d ∧ m % 2 = 0)) (hpos : 0 < h) (hm : 0 < m) :
    roundHalfEven (d * m - h) d = m := by
  obtain ⟨q, rfl⟩ := Nat.exists_eq_succ_of_ne_zero hm.ne'
  have heq : d * (q + 1) - h = d * q + (d - h) := by
    rw [Nat.mul_succ]
    omega
  have hdiv : (d * q + (d - h)) / d = q := by
    rw [Nat.mul_add_div (by omega), Nat.div_eq_of_lt (by omega), Nat.add_zero]
  have hmod : (d * q + (d - h)) % d = d - h := by rw [Nat.mul_add_mod, Nat.mod_eq_of_lt (by omega)]
  unfold roundHalfEven
  rw [Nat.succ_eq_add_one, heq, hdiv, hmod, if_pos (by omega)]

/-- The bits in a binade; at its end they are those of the next one. -/
theorem roundBits_eq {u e : ℕ} (hlow : 2 ^ (52 + e) ≤ u) (hhigh : u ≤ 2 ^ (53 + e)) : roundBits u = 2 ^ 52 * e + roundHalfEven u (2 ^ e) := by
  have hpos : 0 < u := (Nat.two_pow_pos _).trans_le hlow
  rcases Nat.eq_or_lt_of_le hhigh with rfl | hlt
  · have hnext : 2 ^ (53 + e) / 2 ^ (e + 1) = 2 ^ 52 := by
      rw [Nat.pow_div (by omega) Nat.two_pos]
      congr 1
      omega
    have hlast : 2 ^ (53 + e) / 2 ^ e = 2 ^ 53 := by
      rw [Nat.pow_div (by omega) Nat.two_pos]
      congr 1
      omega
    rw [roundBits, Nat.log2_two_pow, show 53 + e - 52 = e + 1 by omega,
      roundHalfEven_of_dvd (Nat.two_pow_pos _) (Nat.pow_dvd_pow 2 (by omega)),
      roundHalfEven_of_dvd (Nat.two_pow_pos _) (Nat.pow_dvd_pow 2 (by omega)), hnext, hlast]
    omega
  · have hlog : u.log2 = 52 + e := (Nat.log2_eq_iff hpos.ne').2 ⟨hlow, by rwa [show 52 + e + 1 = 53 + e by omega]⟩
    rw [roundBits, hlog, Nat.add_sub_cancel_left]

/-- A float is its own rounding. -/
theorem roundBits_units (m : ℕ) : roundBits (units m) = m := by
  unfold units
  split_ifs with h
  · apply roundBits_of_small
    rcases Nat.eq_zero_or_pos m with rfl | hpos
    · simp
    · exact ((Nat.log2_lt hpos.ne').2 h).le
  · have hmod := Nat.mod_lt m (y := 2 ^ 52) (by norm_num)
    have hpow := Nat.two_pow_pos (m / 2 ^ 52 - 1)
    rw [roundBits_eq (e := m / 2 ^ 52 - 1), roundHalfEven_of_dvd hpow (Nat.dvd_mul_left _ _), Nat.mul_div_cancel _ hpow]
    · omega
    · rw [pow_add]
      exact Nat.mul_le_mul_right _ (by omega)
    · rw [pow_add]
      exact Nat.mul_le_mul_right _ (by omega)

theorem units_lt_iff {m n : ℕ} : units m < units n ↔ m < n := by
  constructor
  · intro h
    by_contra hle
    exact absurd h (not_lt.2 (units_mono (not_lt.1 hle)))
  · intro h
    by_contra hle
    have hmono := roundBits_mono (not_lt.1 hle)
    rw [roundBits_units, roundBits_units] at hmono
    omega

/-- The magnitude of a float that is an integer, and its sign unless it is zero. -/
theorem units_of_represents {s : Bool} {m : Fin (2047 * 2 ^ 52)} {a : ℤ} (h : (finite s m).Represents a) :
    units m = unitsOne * a.natAbs ∧ (a ≠ 0 → s = decide (a < 0)) := by
  have hone : (0 : ℤ) < unitsOne := Int.natCast_pos.2 unitsOne_pos
  simp only [Represents, signed] at h
  have hunits : units m = unitsOne * a.natAbs := by
    rw [← Int.natAbs_natCast (units m), ← Int.natAbs_natCast unitsOne, ← Int.natAbs_mul, ← h]
    split_ifs <;> simp
  refine ⟨hunits, fun hne => ?_⟩
  split_ifs at h with hs
  · have hnonpos : (unitsOne : ℤ) * a ≤ 0 := by omega
    have ha := Int.nonpos_of_mul_nonpos_right hnonpos hone
    rw [hs, eq_comm, decide_eq_true_eq]
    omega
  · have hnonneg : 0 ≤ (unitsOne : ℤ) * a := by omega
    have ha := Int.nonneg_of_mul_nonneg_right hnonneg hone
    rw [Bool.not_eq_true] at hs
    rw [hs, eq_comm, decide_eq_false_iff_not]
    omega

variable {x : F64} {n : ℤ}

/-- An integer is its own integer part. -/
theorem trunc_of_represents (h : x.Represents n) : x.trunc = x := by
  cases x with
  | infinite _ => rfl
  | nan => rfl
  | finite s m =>
    rw [trunc, (units_of_represents h).1, Nat.mul_div_cancel_left _ unitsOne_pos, ← (units_of_represents h).1, ofUnits]
    simp only [roundBits_units, m.isLt, dif_pos]

theorem toI64_of_represents (h : x.Represents n) : x.toI64 = Int64.ofInt (max (-2 ^ 63) (min (2 ^ 63 - 1) n)) := by
  cases x with
  | infinite _ => exact h.elim
  | nan => exact h.elim
  | finite s m =>
    obtain ⟨hunits, hsign⟩ := units_of_represents h
    have hn : signed s n.natAbs = n := by
      by_cases hzero : n = 0
      · subst hzero
        cases s <;> rfl
      · rw [hsign hzero, signed_decide]
    rw [toI64, hunits, Nat.mul_div_cancel_left _ unitsOne_pos, hn]

theorem beq_self_of_represents (h : x.Represents n) : x.beq x = true := by
  cases x with
  | infinite _ => exact h.elim
  | nan => exact h.elim
  | finite s m => exact decide_eq_true rfl

/-! ## Exact values -/

/-- In units of the least positive number; an infinity and a NaN have none. -/
def exact : F64 → ℤ
  | finite a m => signed a (units m)
  | _ => 0

theorem signed_units_lt_iff (a b : Bool) (m n : ℕ) : signed a (units m) < signed b (units n) ↔ signed a m < signed b n := by
  have hmn := units_lt_iff (m := m) (n := n)
  have hnm := units_lt_iff (m := n) (n := m)
  have hm := units_lt_iff (m := 0) (n := m)
  have hzero : units 0 = 0 := rfl
  cases a <;> cases b <;> simp only [signed, if_true, if_false, Bool.false_eq_true] <;> omega

theorem lt_iff_exact {y : F64} (hx : x.isFinite = true) (hy : y.isFinite = true) : lt x y = true ↔ x.exact < y.exact := by
  cases x with
  | finite a m =>
    cases y with
    | finite b n =>
      rw [exact, exact, signed_units_lt_iff]
      simp [lt, rank]
    | infinite b => cases hy
    | nan => cases hy
  | infinite a => cases hx
  | nan => cases hx

theorem exact_ofInt (h : n.natAbs ≤ 2 ^ 53) : (ofInt n).exact = unitsOne * n := by
  rw [ofInt_eq (by omega), exact]
  exact signed_units h

/-- From 2 to the 53 on, an integer may round, but not below it. -/
theorem le_exact_ofInt (h : 2 ^ 53 ≤ n) (hn : n.natAbs < 2 ^ 64) : (unitsOne : ℤ) * 2 ^ 53 ≤ (ofInt n).exact := by
  have hmono := not_lt_ofInt (a := 2 ^ 53) (b := n) (by norm_num) hn h
  rw [← exact_ofInt (n := 2 ^ 53) (by norm_num)]
  by_contra hlt
  rw [(lt_iff_exact (isFinite_ofInt (hn.trans (by norm_num))) (isFinite_ofInt (by norm_num))).2 (not_le.1 hlt)] at hmono
  cases hmono

theorem exact_ofInt_le (h : n ≤ -2 ^ 53) (hn : n.natAbs < 2 ^ 64) : (ofInt n).exact ≤ (unitsOne : ℤ) * (-2 ^ 53) := by
  have hmono := not_lt_ofInt (a := n) (b := -2 ^ 53) hn (by norm_num) h
  rw [← exact_ofInt (n := -2 ^ 53) (by norm_num)]
  by_contra hlt
  rw [(lt_iff_exact (isFinite_ofInt (by norm_num)) (isFinite_ofInt (hn.trans (by norm_num)))).2 (not_le.1 hlt)] at hmono
  cases hmono

/-- Within 2 to the 53 an integer and its float lie on the same side of any value. -/
theorem exact_ofInt_lt_iff {t : ℤ} (hn : n.natAbs < 2 ^ 64) (ht : t.natAbs < unitsOne * 2 ^ 53) :
    ((ofInt n).exact < t ↔ unitsOne * n < t) ∧ (t < (ofInt n).exact ↔ t < unitsOne * n) := by
  have hone : (0 : ℤ) < unitsOne := Int.natCast_pos.2 unitsOne_pos
  by_cases hsmall : n.natAbs ≤ 2 ^ 53
  · rw [exact_ofInt hsmall]
    exact ⟨Iff.rfl, Iff.rfl⟩
  · rcases Int.lt_or_lt_of_ne (show n ≠ 0 by omega) with hneg | hpos
    · have hexact := exact_ofInt_le (n := n) (by omega) hn
      have hmul : unitsOne * n ≤ (unitsOne : ℤ) * (-2 ^ 53) := Int.mul_le_mul_of_nonneg_left (by omega) hone.le
      constructor <;> constructor <;> intro h <;> omega
    · have hexact := le_exact_ofInt (n := n) (by omega) hn
      have hmul : (unitsOne : ℤ) * 2 ^ 53 ≤ unitsOne * n := Int.mul_le_mul_of_nonneg_left (by omega) hone.le
      constructor <;> constructor <;> intro h <;> omega

/-! ## Differences -/

def neg : F64 → F64
  | finite a m => finite (!a) m
  | infinite a => infinite (!a)
  | nan => nan

def sub (x y : F64) : F64 := x.add y.neg

def abs : F64 → F64
  | finite _ m => finite false m
  | infinite _ => infinite false
  | nan => nan

theorem exact_neg (x : F64) : x.neg.exact = -x.exact := by
  cases x with
  | finite a m => cases a <;> simp [neg, exact, signed]
  | infinite a => rfl
  | nan => rfl

/-- The units of 2 to the -52. -/
@[irreducible] def unitsEpsilon : ℕ := 2 ^ 1022

theorem unitsEpsilon_eq : unitsEpsilon = 2 ^ 1022 := by
  unfold unitsEpsilon
  rfl

theorem unitsEpsilon_pos : 0 < unitsEpsilon := by
  rw [unitsEpsilon_eq]
  exact Nat.pow_pos Nat.two_pos

theorem unitsOne_eq_epsilon : unitsOne = unitsEpsilon * 2 ^ 52 := by rw [unitsOne_eq, unitsEpsilon_eq, ← pow_add]

/-- `f64::EPSILON`. -/
def epsilon (negative : Bool) : F64 := finite negative ⟨2 ^ 52 * 971, by norm_num⟩

theorem units_epsilon : units (2 ^ 52 * 971) = unitsEpsilon := by
  decide +kernel

/-- The significand of a whole number in a binade. -/
theorem unitsOne_mul {j : ℕ} (hj : j ≤ 52) (n : ℕ) : unitsOne * n = 2 ^ (1022 + j) * (n * 2 ^ (52 - j)) := by
  rw [unitsOne_eq, Nat.mul_comm n, ← Nat.mul_assoc, ← pow_add]
  congr 2
  omega

/-- Epsilon is at most half a unit in the last place, and a tie goes to the even whole number. -/
theorem half_step {j : ℕ} (h1 : 1 ≤ j) (hj : j ≤ 52) (n : ℕ) :
    2 * unitsEpsilon < 2 ^ (1022 + j) ∨ (2 * unitsEpsilon = 2 ^ (1022 + j) ∧ n * 2 ^ (52 - j) % 2 = 0) := by
  rw [unitsEpsilon_eq, ← Nat.pow_succ']
  rcases Nat.eq_or_lt_of_le h1 with rfl | hlt
  · exact .inr ⟨rfl, Nat.mod_eq_zero_of_dvd ((Nat.dvd_of_mod_eq_zero (by norm_num)).mul_left n)⟩
  · exact .inl (Nat.pow_lt_pow_right (by norm_num) (by omega))

theorem roundBits_add_epsilon {n : ℕ} (h2 : 2 ≤ n) (hn : n < 2 ^ 53) : roundBits (unitsOne * n + unitsEpsilon) = roundBits (unitsOne * n) := by
  have hlow := Nat.log2_self_le (n := n) (by omega)
  have hhigh := Nat.lt_log2_self (n := n)
  have hj : n.log2 < 53 := (Nat.log2_lt (by omega)).2 hn
  have h1 : 1 ≤ n.log2 := (Nat.le_log2 (by omega)).2 h2
  generalize n.log2 = j at *
  have hm : 2 ^ 52 ≤ n * 2 ^ (52 - j) ∧ n * 2 ^ (52 - j) + 1 ≤ 2 ^ 53 := by
    constructor
    · calc 2 ^ 52 = 2 ^ j * 2 ^ (52 - j) := by rw [← pow_add]; congr 1; omega
        _ ≤ _ := Nat.mul_le_mul_right _ hlow
    · calc n * 2 ^ (52 - j) < 2 ^ (j + 1) * 2 ^ (52 - j) := Nat.mul_lt_mul_of_pos_right hhigh (Nat.two_pow_pos _)
        _ = 2 ^ 53 := by rw [← pow_add]; congr 1; omega
  have hhalf := half_step h1 (by omega) n
  rw [unitsOne_mul (j := j) (by omega) n]
  have hstep : unitsEpsilon ≤ 2 ^ (1022 + j) := by omega
  have hlow' := Nat.mul_le_mul_left (2 ^ (1022 + j)) hm.1
  have hhigh' := Nat.mul_le_mul_left (2 ^ (1022 + j)) hm.2
  rw [Nat.mul_succ, Nat.mul_comm _ (2 ^ 53), ← pow_add] at hhigh'
  rw [Nat.mul_comm _ (2 ^ 52), ← pow_add] at hlow'
  rw [roundBits_eq (hlow'.trans (Nat.le_add_right _ _)) ((Nat.add_le_add_left hstep _).trans hhigh'),
    roundBits_eq hlow' ((Nat.le_add_right _ _).trans hhigh'), roundHalfEven_add hhalf unitsEpsilon_pos,
    roundHalfEven_of_dvd (Nat.two_pow_pos _) (Nat.dvd_mul_right _ _), Nat.mul_div_cancel_left _ (Nat.two_pow_pos _)]

theorem roundBits_sub_epsilon {n : ℕ} (h3 : 3 ≤ n) (hn : n < 2 ^ 53) : roundBits (unitsOne * n - unitsEpsilon) = roundBits (unitsOne * n) := by
  -- the binade that ends at `n` or after it
  have hlow := Nat.log2_self_le (n := n - 1) (by omega)
  have hhigh := Nat.lt_log2_self (n := n - 1)
  have hj : (n - 1).log2 < 53 := (Nat.log2_lt (by omega)).2 (by omega)
  have h1 : 1 ≤ (n - 1).log2 := (Nat.le_log2 (by omega)).2 (by omega)
  generalize (n - 1).log2 = j at *
  have hm : 2 ^ 52 + 1 ≤ n * 2 ^ (52 - j) ∧ n * 2 ^ (52 - j) ≤ 2 ^ 53 := by
    constructor
    · calc 2 ^ 52 + 1 = 2 ^ j * 2 ^ (52 - j) + 1 := by rw [← pow_add, show j + (52 - j) = 52 by omega]
        _ ≤ n * 2 ^ (52 - j) := Nat.mul_lt_mul_of_pos_right (by omega) (Nat.two_pow_pos _)
    · calc n * 2 ^ (52 - j) ≤ 2 ^ (j + 1) * 2 ^ (52 - j) := Nat.mul_le_mul_right _ (by omega)
        _ = 2 ^ 53 := by rw [← pow_add]; congr 1; omega
  have hhalf := half_step h1 (by omega) n
  rw [unitsOne_mul (j := j) (by omega) n]
  have hstep : unitsEpsilon ≤ 2 ^ (1022 + j) := by omega
  have hlow' := Nat.mul_le_mul_left (2 ^ (1022 + j)) hm.1
  have hhigh' := Nat.mul_le_mul_left (2 ^ (1022 + j)) hm.2
  rw [Nat.mul_comm _ (2 ^ 53), ← pow_add] at hhigh'
  rw [Nat.mul_succ, Nat.mul_comm _ (2 ^ 52), ← pow_add] at hlow'
  rw [roundBits_eq (Nat.le_sub_of_add_le ((Nat.add_le_add_left hstep _).trans hlow')) ((Nat.sub_le _ _).trans hhigh'),
    roundBits_eq ((Nat.le_add_right _ _).trans hlow') hhigh', roundHalfEven_sub hhalf unitsEpsilon_pos (by omega),
    roundHalfEven_of_dvd (Nat.two_pow_pos _) (Nat.dvd_mul_right _ _), Nat.mul_div_cancel_left _ (Nat.two_pow_pos _)]

theorem roundBits_epsilon : roundBits unitsEpsilon = 2 ^ 52 * 971 := by rw [← units_epsilon, roundBits_units]

theorem unitsEpsilon_int : (unitsOne : ℤ) = 2 ^ 52 * unitsEpsilon := by
  rw [unitsOne_eq_epsilon]
  push_cast
  ring

variable (negative : Bool)

theorem signed_eq_mul (u : ℕ) : signed negative u = u * signed negative 1 := by
  rw [← signed_mul, Nat.mul_one]

variable {k : ℤ}

/-- Epsilon more or less than an integer, before it is rounded. -/
theorem add_epsilon (hk : k.natAbs < 2 ^ 53) (negative : Bool) : add (ofInt k) (epsilon negative) =
      ofUnits (decide (2 ^ 52 * k + signed negative 1 < 0)) (unitsEpsilon * (2 ^ 52 * k + signed negative 1).natAbs) := by
  have hpos : (0 : ℤ) < unitsEpsilon := Int.natCast_pos.2 unitsEpsilon_pos
  have hsum : (unitsOne : ℤ) * k + signed negative unitsEpsilon = unitsEpsilon * (2 ^ 52 * k + signed negative 1) := by
    rw [unitsEpsilon_int, signed_eq_mul]
    ring
  have hne : 2 ^ 52 * k + signed negative 1 ≠ 0 := by cases negative <;> simp [signed] <;> omega
  rw [ofInt_eq (by omega), epsilon, add]
  simp only [signed_units hk.le, units_epsilon, hsum]
  rw [if_neg (Int.mul_ne_zero hpos.ne' hne), Int.natAbs_mul, Int.natAbs_natCast]
  congr 1
  rw [decide_eq_decide, Int.mul_neg_iff]
  omega

/-- Far from zero the step is lost. -/
theorem add_epsilon_far (hk : k.natAbs < 2 ^ 53) {negative : Bool}
    (hfar : if negative then k ≤ -2 ∨ 3 ≤ k else k ≤ -3 ∨ 2 ≤ k) : add (ofInt k) (epsilon negative) = ofInt k := by
  have hscale : unitsOne * k.natAbs = unitsEpsilon * (2 ^ 52 * k.natAbs) := by rw [unitsOne_eq_epsilon, Nat.mul_assoc]
  have hbits : roundBits (unitsEpsilon * (2 ^ 52 * k + signed negative 1).natAbs) = roundBits (unitsOne * k.natAbs) := by
    by_cases haway : (k < 0) = (negative = true)
    · have habs : (2 ^ 52 * k + signed negative 1).natAbs = 2 ^ 52 * k.natAbs + 1 := by
        cases negative <;> simp [signed] at haway ⊢ <;> omega
      rw [habs, Nat.mul_succ, ← hscale]
      exact roundBits_add_epsilon (by cases negative <;> simp at hfar haway <;> omega) hk
    · have habs : (2 ^ 52 * k + signed negative 1).natAbs = 2 ^ 52 * k.natAbs - 1 := by
        cases negative <;> simp [signed] at haway hfar ⊢ <;> omega
      rw [habs, Nat.mul_sub_one, ← hscale]
      exact roundBits_sub_epsilon (by cases negative <;> simp at hfar haway <;> omega) hk
  have hsign : decide (2 ^ 52 * k + signed negative 1 < 0) = decide (k < 0) := by
    cases negative <;> simp [signed] at hfar ⊢ <;> omega
  rw [add_epsilon hk, hsign, ofInt, ofUnits, ofUnits]
  simp only [hbits]

/-- Near zero the step is exact. -/
theorem exact_add_epsilon (hnear : (2 ^ 52 * k + signed negative 1).natAbs ≤ 2 ^ 53) :
    (add (ofInt k) (epsilon negative)).isFinite = true ∧
      (add (ofInt k) (epsilon negative)).exact = unitsOne * k + signed negative unitsEpsilon := by
  have hk : k.natAbs < 2 ^ 53 := by cases negative <;> simp [signed] at hnear <;> omega
  have hunits := units_two_pow_mul 1022 hnear
  rw [← unitsEpsilon_eq] at hunits
  have hle := roundBits_mono (Nat.mul_le_mul_left unitsEpsilon hnear)
  have htop : roundBits (unitsEpsilon * 2 ^ 53) = 2 ^ 52 * 1024 := by
    decide +kernel
  rw [add_epsilon hk, ofUnits, dif_pos (by omega)]
  refine ⟨rfl, ?_⟩
  show signed _ (units _) = _
  rw [hunits, signed_mul, signed_decide, unitsEpsilon_int, signed_eq_mul negative unitsEpsilon]
  ring

theorem natAbs_exact (m : Fin (2047 * 2 ^ 52)) : (finite negative m).exact.natAbs = units m := by
  cases negative <;> simp [exact, signed]

/-- The units of half of epsilon. -/
@[irreducible] def halfEpsilon : ℕ := 2 ^ 1021

theorem halfEpsilon_eq : halfEpsilon = 2 ^ 1021 := by
  unfold halfEpsilon
  rfl

theorem unitsEpsilon_eq_half : unitsEpsilon = 2 * halfEpsilon := by rw [unitsEpsilon_eq, halfEpsilon_eq, ← Nat.pow_succ']

theorem units_half : units (2 ^ 52 * 970) = halfEpsilon := by
  decide +kernel

/-- A float of at least one half is a multiple of half of epsilon. -/
theorem dvd_exact (h : 2 ^ 52 * halfEpsilon ≤ x.exact.natAbs) : (halfEpsilon : ℤ) ∣ x.exact := by
  rw [Int.natCast_dvd]
  cases x with
  | finite a m =>
    rw [natAbs_exact] at h ⊢
    have hone : units (2 ^ 52 * 1022) = 2 ^ 52 * halfEpsilon := by
      decide +kernel
    have hbits : 2 ^ 52 * 1022 ≤ m.val := by
      by_contra hlt
      have := units_lt_iff.2 (not_le.1 hlt)
      omega
    unfold units
    rw [if_neg (by omega), halfEpsilon_eq]
    exact Dvd.dvd.mul_left (Nat.pow_dvd_pow 2 (by omega)) _
  | infinite a => exact dvd_zero _
  | nan => exact dvd_zero _

/-- A difference below epsilon does not round up to it. -/
theorem roundBits_sub_lt_epsilon :
    roundBits (x.exact - unitsOne * k).natAbs < 2 ^ 52 * 971 ↔ (x.exact - unitsOne * k).natAbs < unitsEpsilon := by
  constructor
  · intro h
    by_contra hle
    have hmono := roundBits_mono (not_lt.1 hle)
    rw [roundBits_epsilon] at hmono
    omega
  · intro h
    by_cases hk : k = 0
    · -- a float is its own rounding
      subst hk
      rw [Int.mul_zero, Int.sub_zero] at h ⊢
      cases x with
      | finite a m =>
        rw [natAbs_exact, ← units_epsilon, units_lt_iff] at h
        rwa [natAbs_exact, roundBits_units]
      | infinite a => exact (roundBits_eq_zero.2 rfl).trans_lt (by decide)
      | nan => exact (roundBits_eq_zero.2 rfl).trans_lt (by decide)
    · -- both are multiples of half of epsilon
      have hscale : (unitsOne : ℤ) = 2 ^ 53 * halfEpsilon := by
        rw [unitsEpsilon_int, unitsEpsilon_eq_half]
        push_cast
        ring
      have hone : 2 ^ 53 * halfEpsilon ≤ (unitsOne * k).natAbs := by
        rw [hscale, Int.natAbs_mul, Int.natAbs_mul, Int.natAbs_natCast]
        exact Nat.le_mul_of_pos_right _ (Int.natAbs_pos.2 hk)
      have hdvd : (halfEpsilon : ℤ) ∣ x.exact - unitsOne * k := by
        apply Int.dvd_sub
        · apply dvd_exact
          rw [unitsEpsilon_eq_half] at h
          omega
        · rw [hscale]
          exact ((dvd_refl _).mul_left _).mul_right _
      have hle : (x.exact - unitsOne * k).natAbs ≤ halfEpsilon := by
        obtain ⟨c, hc⟩ := Int.natCast_dvd.1 hdvd
        rw [unitsEpsilon_eq_half, hc, Nat.mul_comm 2] at h
        have hc1 := Nat.lt_of_mul_lt_mul_left h
        rw [hc]
        exact (Nat.mul_le_mul_left _ (Nat.le_of_lt_succ hc1)).trans_eq (Nat.mul_one _)
      have hround := roundBits_mono hle
      rw [← units_half, roundBits_units] at hround
      omega

theorem rank_epsilon : rank (epsilon false) = some (2 ^ 52 * 971) := rfl

/-- Equality up to epsilon is that of the exact values. -/
theorem abs_sub_lt_epsilon (hx : x.isFinite = true) (hk : k.natAbs ≤ 2 ^ 53) :
    lt (abs (sub x (ofInt k))) (epsilon false) = true ↔ (x.exact - unitsOne * k).natAbs < unitsEpsilon := by
  rw [← roundBits_sub_lt_epsilon]
  cases x with
  | finite a m =>
    have hsub : sub (finite a m) (ofInt k) = add (finite a m)
      (finite (!decide (k < 0)) ⟨roundBits (unitsOne * k.natAbs), roundBits_int (by omega)⟩) := by
      rw [sub, ofInt_eq (by omega)]
      rfl
    have hsum : signed a (units m) + signed (!decide (k < 0)) (units (roundBits (unitsOne * k.natAbs))) = (finite a m).exact - unitsOne * k := by
      have hneg := signed_units hk
      have hflip : ∀ (b : Bool) (u : ℕ), signed (!b) u = -signed b u := by
        intro b u
        cases b <;> simp [signed]
      rw [hflip, hneg, exact, Int.sub_eq_add_neg]
    rw [hsub, add, hsum, lt, rank_epsilon]
    split_ifs with hzero
    · rw [hzero]
      simp [zero, abs, rank, signed, roundBits_eq_zero.2]
    · unfold ofUnits
      split_ifs with htop
      · simp only [abs, rank, signed, if_false, Bool.false_eq_true, decide_eq_true_eq]
        omega
      · simp only [abs, rank, signed, if_false, Bool.false_eq_true, decide_eq_true_eq]
        omega
  | infinite a => cases hx
  | nan => cases hx

end F64

end FerroDruid.Lib
