import Mathlib.Data.Int.Order.Basic
import Mathlib.Data.List.Induction
import Mathlib.Data.Nat.ModEq
import Mathlib.Tactic.Ring
/-!
# Binary64 numbers

A finite number is a sign and the bits of its magnitude, which are in the order
of the magnitudes. Every magnitude is a whole number of units of 2 to the -1074,
so an exact result is an integer, rounded to the nearest magnitude with ties to
even.
-/

namespace FerroDruid.Lib

open List

inductive F64 where
  | finite (negative : Bool) (bits : Fin (2047 * 2 ^ 52))
  | infinite (negative : Bool)
  | nan
  deriving DecidableEq

namespace F64

/-! ## Units -/

/-- The magnitude in units of the least positive number. -/
def units (bits : ℕ) : ℕ :=
  if bits < 2 ^ 52 then bits else (2 ^ 52 + bits % 2 ^ 52) * 2 ^ (bits / 2 ^ 52 - 1)

/-- One, in units. -/
@[irreducible] def unitsOne : ℕ := 2 ^ 1074

theorem unitsOne_eq : unitsOne = 2 ^ 1074 := by
  unfold unitsOne
  rfl

theorem unitsOne_pos : 0 < unitsOne := by
  rw [unitsOne_eq]
  exact Nat.pow_pos Nat.two_pos

def roundHalfEven (n d : ℕ) : ℕ :=
  if d < 2 * (n % d) ∨ (d = 2 * (n % d) ∧ n / d % 2 = 1) then n / d + 1 else n / d

/-- The bits of the nearest magnitude; a significand has 53 bits. -/
def roundBits (u : ℕ) : ℕ := 2 ^ 52 * (u.log2 - 52) + roundHalfEven u (2 ^ (u.log2 - 52))

theorem roundHalfEven_of_dvd {n d : ℕ} (hd : 0 < d) (h : d ∣ n) : roundHalfEven n d = n / d := by
  unfold roundHalfEven
  rw [Nat.mod_eq_zero_of_dvd h, if_neg (by omega)]

theorem roundHalfEven_le (n d : ℕ) : roundHalfEven n d ≤ n / d + 1 := by
  unfold roundHalfEven
  split <;> omega

theorem le_roundHalfEven (n d : ℕ) : n / d ≤ roundHalfEven n d := by
  unfold roundHalfEven
  split <;> omega

theorem roundHalfEven_mul {c : ℕ} (hc : 0 < c) (n d : ℕ) : roundHalfEven (c * n) (c * d) = roundHalfEven n d := by
  unfold roundHalfEven
  simp only [Nat.mul_mod_mul_left, Nat.mul_div_mul_left _ _ hc, Nat.mul_left_comm 2, Nat.mul_lt_mul_left hc, Nat.mul_right_inj hc.ne']

theorem roundHalfEven_mono {n m d : ℕ} (h : n ≤ m) : roundHalfEven n d ≤ roundHalfEven m d := by
  rcases Nat.lt_or_ge (n / d) (m / d) with hlt | hge
  · have := roundHalfEven_le n d
    have := le_roundHalfEven m d
    omega
  · -- one quotient, so the remainders are in order
    have hdiv : n / d = m / d := le_antisymm (Nat.div_le_div_right h) hge
    have hn := Nat.div_add_mod n d
    have hm := Nat.div_add_mod m d
    rw [hdiv] at hn
    unfold roundHalfEven
    split_ifs <;> omega

variable {u : ℕ}

/-- The significand before rounding. -/
theorem significand_bounds (h : 52 ≤ u.log2) :
    2 ^ 52 ≤ u / 2 ^ (u.log2 - 52) ∧ u / 2 ^ (u.log2 - 52) < 2 ^ 53 := by
  have hne : u ≠ 0 := by
    rintro rfl
    simp at h
  have hlow := Nat.log2_self_le hne
  have hhigh := Nat.lt_log2_self (n := u)
  constructor
  · rw [Nat.le_div_iff_mul_le (Nat.two_pow_pos _), ← pow_add]
    rwa [show 52 + (u.log2 - 52) = u.log2 by omega]
  · rw [Nat.div_lt_iff_lt_mul (Nat.two_pow_pos _), ← pow_add]
    rwa [show 53 + (u.log2 - 52) = u.log2 + 1 by omega]

theorem roundBits_of_small (h : u.log2 ≤ 52) : roundBits u = u := by
  unfold roundBits
  rw [Nat.sub_eq_zero_of_le h, pow_zero, roundHalfEven_of_dvd one_pos (one_dvd u), Nat.div_one]
  omega

/-- The nearest magnitude is a whole number of steps of its significand. -/
theorem units_roundBits_eq (u : ℕ) : units (roundBits u) = roundHalfEven u (2 ^ (u.log2 - 52)) * 2 ^ (u.log2 - 52) := by
  rcases Nat.le_total u.log2 52 with hsmall | hlarge
  · rw [roundBits_of_small hsmall, Nat.sub_eq_zero_of_le hsmall, pow_zero, roundHalfEven_of_dvd one_pos (one_dvd u), Nat.div_one, Nat.mul_one]
    unfold units
    split_ifs with hlt
    · rfl
    · have hhigh := Nat.lt_log2_self (n := u)
      have hpow : 2 ^ (u.log2 + 1) ≤ 2 ^ 53 := Nat.pow_le_pow_right (by omega) (by omega)
      have hdiv : u / 2 ^ 52 = 1 := by omega
      rw [hdiv]
      omega
  · obtain ⟨hlow, hhigh⟩ := significand_bounds hlarge
    have hround := roundHalfEven_le u (2 ^ (u.log2 - 52))
    have hround' := le_roundHalfEven u (2 ^ (u.log2 - 52))
    unfold units roundBits
    generalize roundHalfEven u (2 ^ (u.log2 - 52)) = q at hround hround' ⊢
    rw [if_neg (by omega)]
    rcases Nat.lt_or_ge q (2 ^ 53) with hlt | hge
    · have hexp : (2 ^ 52 * (u.log2 - 52) + q) / 2 ^ 52 = u.log2 - 52 + 1 := by omega
      have hfrac : 2 ^ 52 + (2 ^ 52 * (u.log2 - 52) + q) % 2 ^ 52 = q := by omega
      rw [hexp, hfrac, Nat.add_sub_cancel]
    · -- the significand is rounded to the next power of two
      obtain rfl : q = 2 ^ 53 := by omega
      have hexp : (2 ^ 52 * (u.log2 - 52) + 2 ^ 53) / 2 ^ 52 = u.log2 - 52 + 2 := by omega
      have hfrac : 2 ^ 52 + (2 ^ 52 * (u.log2 - 52) + 2 ^ 53) % 2 ^ 52 = 2 ^ 52 := by omega
      rw [hexp, hfrac, Nat.add_succ_sub_one, pow_succ]
      ring

/-- A magnitude of at most 53 significant bits is its own rounding. -/
theorem units_roundBits (h : 2 ^ (u.log2 - 52) ∣ u) : units (roundBits u) = u := by
  rw [units_roundBits_eq, roundHalfEven_of_dvd (Nat.two_pow_pos _) h, Nat.div_mul_cancel h]

theorem roundBits_le {e : ℕ} (h : u < 2 ^ (e + 53)) : roundBits u ≤ 2 ^ 52 * (e + 2) := by
  rcases Nat.le_total u.log2 52 with hsmall | hlarge
  · rw [roundBits_of_small hsmall]
    have hhigh := Nat.lt_log2_self (n := u)
    have hpow : 2 ^ (u.log2 + 1) ≤ 2 ^ 53 := Nat.pow_le_pow_right (by omega) (by omega)
    omega
  · have hne : u ≠ 0 := by
      rintro rfl
      simp at hlarge
    have hlog : u.log2 < e + 53 := (Nat.log2_lt hne).2 h
    have hround := roundHalfEven_le u (2 ^ (u.log2 - 52))
    obtain ⟨-, hhigh⟩ := significand_bounds hlarge
    unfold roundBits
    omega

/-- Rounding keeps the order. -/
theorem roundBits_mono {v : ℕ} (h : u ≤ v) : roundBits u ≤ roundBits v := by
  rcases Nat.eq_zero_or_pos u with rfl | hpos
  · simp [roundBits, roundHalfEven]
  have hlog : u.log2 ≤ v.log2 := (Nat.le_log2 (by omega)).2 ((Nat.log2_self_le (by omega)).trans h)
  rcases Nat.eq_or_lt_of_le hlog with heq | hlt
  · have hround := roundHalfEven_mono (d := 2 ^ (v.log2 - 52)) h
    unfold roundBits
    rw [heq]
    omega
  rcases Nat.lt_or_ge 52 v.log2 with hlarge | hsmall
  · -- the exponents differ, so the significands do not matter
    obtain ⟨hlow, -⟩ := significand_bounds (u := v) (by omega)
    have hround := le_roundHalfEven v (2 ^ (v.log2 - 52))
    have hu : roundBits u ≤ 2 ^ 52 * (u.log2 - 52) + 2 ^ 53 := by
      rcases Nat.le_total u.log2 52 with husmall | hularge
      · rw [roundBits_of_small husmall]
        have hhigh := Nat.lt_log2_self (n := u)
        have hpow : 2 ^ (u.log2 + 1) ≤ 2 ^ 53 := Nat.pow_le_pow_right (by omega) (by omega)
        omega
      · obtain ⟨-, hhigh⟩ := significand_bounds hularge
        have hround' := roundHalfEven_le u (2 ^ (u.log2 - 52))
        unfold roundBits
        omega
    have hv : 2 ^ 52 * (v.log2 - 52) + 2 ^ 52 ≤ roundBits v := Nat.add_le_add_left (hlow.trans hround) _
    omega
  · rwa [roundBits_of_small (by omega), roundBits_of_small hsmall]

theorem units_mono {m n : ℕ} (h : m ≤ n) : units m ≤ units n := by
  unfold units
  have hm := Nat.mod_lt m (y := 2 ^ 52) (by norm_num)
  split_ifs with hmsmall hnsmall hnsmall
  · exact h
  · have hpow : 1 ≤ 2 ^ (n / 2 ^ 52 - 1) := Nat.one_le_two_pow
    calc m ≤ (2 ^ 52 + n % 2 ^ 52) * 1 := by omega
      _ ≤ _ := Nat.mul_le_mul_left _ hpow
  · omega
  · rcases Nat.eq_or_lt_of_le (Nat.div_le_div_right (c := 2 ^ 52) h) with heq | hlt
    · rw [heq]
      exact Nat.mul_le_mul_right _ (by omega)
    · -- the larger exponent makes up for any significand
      have hexp : m / 2 ^ 52 - 1 + 1 ≤ n / 2 ^ 52 - 1 := by omega
      calc (2 ^ 52 + m % 2 ^ 52) * 2 ^ (m / 2 ^ 52 - 1) ≤ 2 ^ 53 * 2 ^ (m / 2 ^ 52 - 1) := Nat.mul_le_mul_right _ (by omega)
        _ = 2 ^ 52 * 2 ^ (m / 2 ^ 52 - 1 + 1) := by rw [pow_succ]; ring
        _ ≤ 2 ^ 52 * 2 ^ (n / 2 ^ 52 - 1) := Nat.mul_le_mul_left _ (Nat.pow_le_pow_right (by norm_num) hexp)
        _ ≤ _ := Nat.mul_le_mul_right _ (by omega)

/-! ## Operations -/

def isFinite : F64 → Bool
  | finite _ _ => true
  | _ => false

def isNan : F64 → Bool
  | nan => true
  | _ => false

def zero (negative : Bool) : F64 := finite negative ⟨0, by norm_num⟩

/-- The nearest number, or an infinity past the largest. -/
def ofUnits (negative : Bool) (u : ℕ) : F64 :=
  if h : roundBits u < 2047 * 2 ^ 52 then finite negative ⟨roundBits u, h⟩ else infinite negative

/-- `n as f64`. -/
def ofInt (n : ℤ) : F64 := ofUnits (decide (n < 0)) (unitsOne * n.natAbs)

def signed (negative : Bool) (u : ℕ) : ℤ := if negative then -(u : ℤ) else u

/-- A sum that is exactly zero is negative only when both summands are. -/
def add : F64 → F64 → F64
  | finite a m, finite b n =>
    let sum := signed a (units m) + signed b (units n)
    if sum = 0 then zero (a && b) else ofUnits (decide (sum < 0)) sum.natAbs
  | infinite a, infinite b => if a = b then infinite a else nan
  | infinite a, finite _ _ => infinite a
  | finite _ _, infinite b => infinite b
  | nan, _ => nan
  | _, nan => nan

def trunc : F64 → F64
  | finite a m => ofUnits a (unitsOne * (units m / unitsOne))
  | x => x

/-- `f64::to_bits`; all NaN are one. -/
def toBits : F64 → ℕ
  | finite a m => (if a then 2 ^ 63 else 0) + m
  | infinite a => (if a then 2 ^ 63 else 0) + 2047 * 2 ^ 52
  | nan => 2047 * 2 ^ 52 + 2 ^ 51

theorem toBits_lt (x : F64) : x.toBits < 2 ^ 64 := by
  cases x with
  | finite a m =>
    cases a <;> simp only [toBits, if_true, if_false, Bool.false_eq_true] <;> omega
  | infinite a => cases a <;> decide
  | nan => decide

/-- `f64::from_bits` -/
def ofBits (bits : ℕ) : F64 :=
  if h : bits % 2 ^ 63 < 2047 * 2 ^ 52 then finite (decide (2 ^ 63 ≤ bits)) ⟨bits % 2 ^ 63, h⟩
  else if bits % 2 ^ 63 = 2047 * 2 ^ 52 then infinite (decide (2 ^ 63 ≤ bits)) else nan

theorem ofBits_toBits (x : F64) : ofBits x.toBits = x := by
  cases x with
  | finite a m =>
    have hm := m.isLt
    have hmod : (toBits (finite a m)) % 2 ^ 63 = m := by
      cases a <;> simp only [toBits, if_true, if_false, Bool.false_eq_true] <;> omega
    have hsign : decide (2 ^ 63 ≤ toBits (finite a m)) = a := by
      cases a <;> simp only [toBits, if_true, if_false, Bool.false_eq_true, decide_eq_true_eq, decide_eq_false_iff_not] <;> omega
    unfold ofBits
    simp only [hmod, hsign, dif_pos hm]
  | infinite a => cases a <;> rfl
  | nan => rfl

/-- `x as i64`: saturating, and zero for a NaN. -/
def toI64 : F64 → Int64
  | finite a m => Int64.ofInt (max (-2 ^ 63) (min (2 ^ 63 - 1) (signed a (units m / unitsOne))))
  | infinite a => if a then Int64.minValue else Int64.maxValue
  | nan => 0

/-- `f64::total_cmp`: the zeros differ, and a NaN comes last. -/
def totalCmp (x y : F64) : Ordering :=
  let place : F64 → ℤ
    | finite a m => if a then -(m : ℤ) - 1 else m
    | infinite a => if a then -(2047 * 2 ^ 52) - 1 else 2047 * 2 ^ 52
    | nan => 2047 * 2 ^ 52 + 1
  compare (place x) (place y)

/-- Sign and bits as one number in the order of the values; a NaN has none. -/
def rank : F64 → Option ℤ
  | finite a m => some (signed a m)
  | infinite a => some (signed a (2047 * 2 ^ 52))
  | nan => none

/-- Nothing is less than a NaN, or greater. -/
def lt (x y : F64) : Bool :=
  match x.rank, y.rank with
  | some a, some b => a < b
  | _, _ => false

def le (x y : F64) : Bool :=
  match x.rank, y.rank with
  | some a, some b => a ≤ b
  | _, _ => false

/-- The two zeros are equal, and a NaN is not equal to itself. -/
def beq (x y : F64) : Bool :=
  match x.rank, y.rank with
  | some a, some b => a = b
  | _, _ => false

/-! ## Integers -/

variable {k : ℕ}

theorem roundBits_int (h : k < 2 ^ 64) : roundBits (unitsOne * k) < 2047 * 2 ^ 52 := by
  have hlt : unitsOne * k < 2 ^ (1085 + 53) := by
    calc unitsOne * k < unitsOne * 2 ^ 64 := Nat.mul_lt_mul_of_pos_left h unitsOne_pos
      _ = 2 ^ (1085 + 53) := by rw [unitsOne_eq, ← pow_add]
  have hle := roundBits_le hlt
  omega

theorem roundBits_eq_zero : roundBits u = 0 ↔ u = 0 := by
  constructor
  · intro h
    rcases Nat.le_total u.log2 52 with hsmall | hlarge
    · rwa [roundBits_of_small hsmall] at h
    · obtain ⟨hlow, -⟩ := significand_bounds hlarge
      have hround := le_roundHalfEven u (2 ^ (u.log2 - 52))
      unfold roundBits at h
      omega
  · rintro rfl
    simp [roundBits, roundHalfEven]

variable {n : ℤ}

theorem ofInt_eq (h : n.natAbs < 2 ^ 64) :
    ofInt n = finite (decide (n < 0)) ⟨roundBits (unitsOne * n.natAbs), roundBits_int h⟩ := by
  unfold ofInt ofUnits
  rw [dif_pos (roundBits_int h)]

theorem ofInt_zero : ofInt 0 = zero false := by
  have hbits : roundBits (unitsOne * (0 : ℤ).natAbs) = 0 := by
    rw [roundBits_eq_zero, Int.natAbs_zero, Nat.mul_zero]
  rw [ofInt_eq (by decide), zero]
  simp only [hbits, lt_irrefl, decide_false]

theorem log2_two_pow_mul (e : ℕ) (hpos : 0 < k) : (2 ^ e * k).log2 = e + k.log2 := by
  rw [Nat.log2_eq_iff (Nat.mul_pos (Nat.two_pow_pos e) hpos).ne']
  have hlow := Nat.log2_self_le (n := k) (by omega)
  have hhigh := Nat.lt_log2_self (n := k)
  constructor
  · rw [pow_add]
    exact Nat.mul_le_mul_left _ hlow
  · rw [Nat.add_assoc, pow_add]
    exact Nat.mul_lt_mul_of_pos_left hhigh (Nat.two_pow_pos _)

/-- A significand of at most 53 bits is its own rounding, at any scale. -/
theorem units_two_pow_mul (e : ℕ) (h : k ≤ 2 ^ 53) : units (roundBits (2 ^ e * k)) = 2 ^ e * k := by
  apply units_roundBits
  rcases Nat.eq_zero_or_pos k with rfl | hpos
  · simp
  rw [log2_two_pow_mul e hpos]
  rcases Nat.eq_or_lt_of_le h with rfl | hlt
  · rw [← pow_add, Nat.log2_two_pow]
    exact Nat.pow_dvd_pow 2 (by omega)
  · have hlog' : k.log2 < 53 := (Nat.log2_lt (by omega)).2 hlt
    exact Dvd.dvd.mul_right (Nat.pow_dvd_pow 2 (by omega)) k

/-- An integer up to 2 to the 53 is its own rounding. -/
theorem units_ofInt (h : k ≤ 2 ^ 53) : units (roundBits (unitsOne * k)) = unitsOne * k := by
  rw [unitsOne_eq]
  exact units_two_pow_mul 1074 h

theorem signed_decide (n : ℤ) : signed (decide (n < 0)) n.natAbs = n := by
  unfold signed
  by_cases h : n < 0
  · rw [decide_eq_true h, if_pos rfl]
    omega
  · rw [decide_eq_false h, if_neg Bool.false_ne_true]
    omega

theorem signed_mul (negative : Bool) (k u : ℕ) : signed negative (k * u) = k * signed negative u := by
  cases negative <;> simp [signed]

theorem signed_units (h : n.natAbs ≤ 2 ^ 53) :
    signed (decide (n < 0)) (units (roundBits (unitsOne * n.natAbs))) = unitsOne * n := by
  rw [units_ofInt h, signed_mul, signed_decide]

theorem units_div_one (h : n.natAbs ≤ 2 ^ 53) : units (roundBits (unitsOne * n.natAbs)) / unitsOne = n.natAbs := by
  rw [units_ofInt h, Nat.mul_div_cancel_left _ unitsOne_pos]

theorem toI64_ofInt (h : n.natAbs ≤ 2 ^ 53) : toI64 (ofInt n) = Int64.ofInt n := by
  rw [ofInt_eq (by omega), toI64]
  simp only [units_div_one h, signed_decide]
  congr 1
  omega

/-! ## Order of integers -/

theorem rank_ofInt (h : n.natAbs < 2 ^ 64) :
    rank (ofInt n) = some (signed (decide (n < 0)) (roundBits (unitsOne * n.natAbs))) := by
  rw [ofInt_eq h]
  rfl

variable {a b : ℤ}

theorem signed_roundBits_mono (hab : a ≤ b) :
    signed (decide (a < 0)) (roundBits (unitsOne * a.natAbs)) ≤ signed (decide (b < 0)) (roundBits (unitsOne * b.natAbs)) := by
  unfold signed
  by_cases hneg : a < 0 <;> by_cases hneg' : b < 0 <;> simp only [hneg, hneg', decide_true, decide_false, if_true, Bool.false_eq_true, if_false]
  · have hmono := roundBits_mono (Nat.mul_le_mul_left unitsOne (show b.natAbs ≤ a.natAbs by omega))
    omega
  · omega
  · omega
  · have hmono := roundBits_mono (Nat.mul_le_mul_left unitsOne (show a.natAbs ≤ b.natAbs by omega))
    omega

/-- Conversion keeps the order, as far as it can be told apart. -/
theorem not_lt_ofInt (ha : a.natAbs < 2 ^ 64) (hb : b.natAbs < 2 ^ 64) (hab : a ≤ b) :
    lt (ofInt b) (ofInt a) = false := by
  unfold lt
  rw [rank_ofInt ha, rank_ofInt hb]
  exact decide_eq_false (not_lt.2 (signed_roundBits_mono hab))

theorem roundBits_int_eq_zero (n : ℤ) : roundBits (unitsOne * n.natAbs) = 0 ↔ n = 0 := by
  rw [roundBits_eq_zero, Nat.mul_eq_zero, Int.natAbs_eq_zero]
  exact or_iff_right unitsOne_pos.ne'

/-- Integers that neither is less than the other are one number. -/
theorem ofInt_eq_of_not_lt (ha : a.natAbs < 2 ^ 64) (hb : b.natAbs < 2 ^ 64) (hab : lt (ofInt a) (ofInt b) = false)
    (hba : lt (ofInt b) (ofInt a) = false) : ofInt a = ofInt b := by
  have hza := roundBits_int_eq_zero a
  have hzb := roundBits_int_eq_zero b
  unfold lt at hab hba
  rw [rank_ofInt ha, rank_ofInt hb] at hab hba
  simp only [decide_eq_false_iff_not, not_lt] at hab hba
  have heq := le_antisymm hba hab
  rw [ofInt_eq ha, ofInt_eq hb]
  unfold signed at heq
  by_cases hneg : a < 0 <;> by_cases hneg' : b < 0 <;>
    simp only [hneg, hneg', decide_true, decide_false, if_true, if_false, Bool.false_eq_true] at heq ⊢
  · congr 2
    omega
  · omega
  · omega
  · congr 2
    omega

/-- Conversion keeps what is less, unless it makes both one number. -/
theorem lt_ofInt_iff (ha : a.natAbs < 2 ^ 64) (hb : b.natAbs < 2 ^ 64) :
    lt (ofInt a) (ofInt b) = true ↔ a < b ∧ ofInt a ≠ ofInt b := by
  constructor
  · intro h
    refine ⟨?_, fun heq => ?_⟩
    · by_contra hle
      rw [not_lt_ofInt hb ha (not_lt.1 hle)] at h
      cases h
    · rw [heq, not_lt_ofInt hb hb le_rfl] at h
      cases h
  · rintro ⟨hlt, hne⟩
    by_contra hnot
    exact hne (ofInt_eq_of_not_lt ha hb (by simpa using hnot) (not_lt_ofInt ha hb hlt.le))

theorem le_ofInt (ha : a.natAbs < 2 ^ 64) (hb : b.natAbs < 2 ^ 64) : le (ofInt a) (ofInt b) = !lt (ofInt b) (ofInt a) := by
  unfold le lt
  rw [rank_ofInt ha, rank_ofInt hb]
  simp only [← decide_not, not_lt]

/-- An integer below 2 to the 53 is not the rounding of another one. -/
theorem eq_of_ofInt_eq (ha : a.natAbs < 2 ^ 53) (hb : b.natAbs < 2 ^ 64) (h : ofInt a = ofInt b) : a = b := by
  rw [ofInt_eq (by omega), ofInt_eq hb] at h
  simp only [finite.injEq, Fin.mk.injEq, decide_eq_decide] at h
  obtain ⟨hsign, hbits⟩ := h
  rcases Nat.lt_or_ge (2 ^ 53) b.natAbs with hlarge | hsmall
  · -- the rounding of the larger number is at least 2 to the 53
    have hmono := roundBits_mono (Nat.mul_le_mul_left unitsOne hlarge.le)
    rw [← hbits] at hmono
    have hunits := congrArg units (le_antisymm hmono (roundBits_mono (Nat.mul_le_mul_left unitsOne ha.le)))
    rw [units_ofInt le_rfl, units_ofInt ha.le] at hunits
    have := Nat.eq_of_mul_eq_mul_left unitsOne_pos hunits
    omega
  · have hunits := congrArg units hbits
    rw [units_ofInt ha.le, units_ofInt hsmall] at hunits
    have := Nat.eq_of_mul_eq_mul_left unitsOne_pos hunits
    omega

/-! ## Sums of integers -/

/-- Exactly an integer. -/
def Represents (x : F64) (n : ℤ) : Prop :=
  match x with
  | finite a m => signed a (units m) = unitsOne * n
  | _ => False

theorem represents_ofInt_iff {k : ℤ} (h : n.natAbs ≤ 2 ^ 53) : (ofInt n).Represents k ↔ n = k := by
  rw [ofInt_eq (by omega)]
  show signed _ _ = _ ↔ _
  rw [signed_units h]
  exact mul_right_inj' (Int.natCast_ne_zero.2 unitsOne_pos.ne')

/-- The bits of 2 to the 200: an integer below 2 to the 53 added to a number up to
it is rounded to one up to it. -/
def enough : ℕ := 2 ^ 52 * (200 + 1023)

theorem roundBits_enough : roundBits (units enough + unitsOne * 2 ^ 53) = enough := by
  decide +kernel

theorem add_ofInt_le {a : Bool} {m : Fin (2047 * 2 ^ 52)} (hm : m.val ≤ enough) (hn : n.natAbs ≤ 2 ^ 53) :
    ∃ (a' : Bool) (m' : Fin (2047 * 2 ^ 52)), (finite a m).add (ofInt n) = finite a' m' ∧ m'.val ≤ enough := by
  rw [ofInt_eq (by omega), add]
  simp only [signed_units hn]
  split_ifs with hzero
  · exact ⟨_, _, rfl, Nat.zero_le _⟩
  · have hsigned : (signed a (units m)).natAbs = units m := by unfold signed; split_ifs <;> simp
    have hsum : (signed a (units m) + unitsOne * n).natAbs ≤ units enough + unitsOne * 2 ^ 53 :=
      calc (signed a (units m) + unitsOne * n).natAbs ≤ (signed a (units m)).natAbs + (unitsOne * n).natAbs := Int.natAbs_add_le _ _
        _ = units m + unitsOne * n.natAbs := by rw [hsigned, Int.natAbs_mul, Int.natAbs_natCast]
        _ ≤ _ := Nat.add_le_add (units_mono hm) (Nat.mul_le_mul_left _ hn)
    have hround := roundBits_mono hsum
    rw [roundBits_enough] at hround
    have henough : enough < 2047 * 2 ^ 52 := by
      unfold enough
      omega
    have hlt : roundBits (signed a (units m) + unitsOne * n).natAbs < 2047 * 2 ^ 52 := hround.trans_lt henough
    rw [ofUnits, dif_pos hlt]
    exact ⟨_, _, rfl, hround⟩

/-- Integers added one by one. -/
def sumOfInts (ns : List ℤ) : F64 := ns.foldl (fun acc n => acc.add (ofInt n)) (zero false)

variable {ns : List ℤ}

/-- However many they are, they do not add up to an infinity. -/
theorem isFinite_sumOfInts (h : ∀ n ∈ ns, n.natAbs ≤ 2 ^ 53) : (sumOfInts ns).isFinite = true := by
  have hfold : ∀ (ns : List ℤ) (a : Bool) (m : Fin (2047 * 2 ^ 52)), m.val ≤ enough → (∀ n ∈ ns, n.natAbs ≤ 2 ^ 53) →
      (ns.foldl (fun acc n => acc.add (ofInt n)) (finite a m)).isFinite = true := by
    intro ns
    induction ns with
    | nil => exact fun _ _ _ _ => rfl
    | cons n ns ih =>
      intro a m hm hns
      obtain ⟨hn, hns⟩ := forall_mem_cons.1 hns
      obtain ⟨a', m', heq, hm'⟩ := add_ofInt_le hm hn
      rw [foldl_cons, heq]
      exact ih a' m' hm' hns
  exact hfold ns false ⟨0, by norm_num⟩ (Nat.zero_le _) h

/-- The nearest integer of 53 significant bits, ties to even. -/
def roundInt (n : ℤ) : ℤ :=
  signed (decide (n < 0)) (roundHalfEven n.natAbs (2 ^ (n.natAbs.log2 - 52)) * 2 ^ (n.natAbs.log2 - 52))

/-- Integers added one by one, each sum rounded. -/
def roundedSum (ns : List ℤ) : ℤ := ns.foldl (fun acc n => roundInt (acc + n)) 0

theorem roundInt_of_small (h : n.natAbs ≤ 2 ^ 53) : roundInt n = n := by
  have hround : roundHalfEven n.natAbs (2 ^ (n.natAbs.log2 - 52)) * 2 ^ (n.natAbs.log2 - 52) = n.natAbs := by
    rw [← units_roundBits_eq, ← Nat.one_mul n.natAbs, ← pow_zero 2, units_two_pow_mul 0 h]
  rw [roundInt, hround, signed_decide]

/-- The nearest number to an integer is an integer. -/
theorem units_roundInt (n : ℤ) :
    signed (decide (n < 0)) (units (roundBits (unitsOne * n.natAbs))) = unitsOne * roundInt n := by
  rcases Nat.le_total n.natAbs (2 ^ 53) with hsmall | hlarge
  · rw [signed_units hsmall, roundInt_of_small hsmall]
  have hlog : 53 ≤ n.natAbs.log2 := (Nat.le_log2 (by omega)).2 hlarge
  have hstep : 2 ^ (1074 + n.natAbs.log2 - 52) = unitsOne * 2 ^ (n.natAbs.log2 - 52) := by
    rw [unitsOne_eq, ← pow_add]
    congr 1
    omega
  have hlog' : (unitsOne * n.natAbs).log2 = 1074 + n.natAbs.log2 := by rw [unitsOne_eq, log2_two_pow_mul 1074 (by omega)]
  rw [units_roundBits_eq, hlog', hstep, roundHalfEven_mul unitsOne_pos, Nat.mul_left_comm, signed_mul, roundInt]

theorem natAbs_roundInt_le (n : ℤ) : (roundInt n).natAbs ≤ 2 * n.natAbs := by
  have hsigned : (roundInt n).natAbs = roundHalfEven n.natAbs (2 ^ (n.natAbs.log2 - 52)) * 2 ^ (n.natAbs.log2 - 52) := by
    unfold roundInt signed
    split_ifs
    · rw [Int.natAbs_neg, Int.natAbs_natCast]
    · rw [Int.natAbs_natCast]
  rw [hsigned]
  rcases Nat.le_total n.natAbs (2 ^ 53) with hsmall | hlarge
  · rw [← hsigned, roundInt_of_small hsmall]
    omega
  have hstep : 2 ^ (n.natAbs.log2 - 52) ≤ n.natAbs :=
    (Nat.pow_le_pow_right two_pos (Nat.sub_le _ _)).trans (Nat.log2_self_le (by omega))
  calc _ ≤ (n.natAbs / 2 ^ (n.natAbs.log2 - 52) + 1) * 2 ^ (n.natAbs.log2 - 52) := Nat.mul_le_mul_right _ (roundHalfEven_le ..)
    _ = n.natAbs / 2 ^ (n.natAbs.log2 - 52) * 2 ^ (n.natAbs.log2 - 52) + 2 ^ (n.natAbs.log2 - 52) := by rw [Nat.add_mul, Nat.one_mul]
    _ ≤ n.natAbs + n.natAbs := Nat.add_le_add (Nat.div_mul_le_self ..) hstep
    _ = 2 * n.natAbs := (Nat.two_mul _).symm

theorem isFinite_ofInt (h : n.natAbs < 2 ^ 70) : (ofInt n).isFinite = true := by
  have hlt : unitsOne * n.natAbs < 2 ^ (1091 + 53) := by
    calc unitsOne * n.natAbs < unitsOne * 2 ^ 70 := Nat.mul_lt_mul_of_pos_left h unitsOne_pos
      _ = 2 ^ (1091 + 53) := by rw [unitsOne_eq, ← pow_add]
  have hle := roundBits_le hlt
  rw [ofInt, ofUnits, dif_pos (by omega)]
  rfl

theorem represents_ofInt (h : (ofInt n).isFinite = true) : (ofInt n).Represents (roundInt n) := by
  unfold ofInt ofUnits at h ⊢
  split_ifs at h ⊢
  · exact units_roundInt n
  · cases h

/-- A sum is the number nearest to that of the values, or a zero. -/
theorem Represents.add_eq {x y : F64} (hx : x.Represents a) (hy : y.Represents b) :
    x.add y = ofInt (a + b) ∨ a + b = 0 ∧ ∃ negative, x.add y = zero negative := by
  cases x with
  | infinite _ => exact hx.elim
  | nan => exact hx.elim
  | finite s m =>
    cases y with
    | infinite _ => exact hy.elim
    | nan => exact hy.elim
    | finite t n =>
      have hone : 0 < (unitsOne : ℤ) := Int.natCast_pos.2 unitsOne_pos
      have hm : signed s (units m) = unitsOne * a := hx
      have hn : signed t (units n) = unitsOne * b := hy
      simp only [add, hm, hn, ← Int.mul_add]
      split_ifs with hzero
      · exact .inr ⟨(Int.mul_eq_zero.1 hzero).resolve_left hone.ne', _, rfl⟩
      · have hsign : decide ((unitsOne : ℤ) * (a + b) < 0) = decide (a + b < 0) := by
          rw [decide_eq_decide, Int.mul_neg_iff]
          omega
        rw [hsign, Int.natAbs_mul, Int.natAbs_natCast, ofInt]
        exact .inl rfl

theorem represents_zero (negative : Bool) : (zero negative).Represents 0 := by
  cases negative <;> rfl

theorem Represents.add {x y : F64} (hx : x.Represents a) (hy : y.Represents b) (hfinite : (x.add y).isFinite = true) :
    (x.add y).Represents (roundInt (a + b)) := by
  rcases hx.add_eq hy with h | ⟨hzero, negative, h⟩
  · rw [h] at hfinite ⊢
    exact represents_ofInt hfinite
  · rw [h, hzero]
    exact represents_zero negative

/-- The sum of floats is the rounded sum. -/
theorem sumOfInts_represents (h : ∀ n ∈ ns, n.natAbs ≤ 2 ^ 53) : (sumOfInts ns).Represents (roundedSum ns) := by
  induction ns using List.reverseRecOn with
  | nil =>
    rw [sumOfInts, foldl_nil, ← ofInt_zero]
    exact (represents_ofInt_iff (by decide)).2 rfl
  | append_singleton ns n ih =>
    have hfinite := isFinite_sumOfInts h
    obtain ⟨hns, hn⟩ := forall_mem_append.1 h
    rw [sumOfInts, foldl_append, foldl_cons, foldl_nil] at hfinite ⊢
    rw [roundedSum, foldl_append, foldl_cons, foldl_nil]
    exact (ih hns).add ((represents_ofInt_iff (hn n mem_cons_self)).2 rfl) hfinite

theorem Represents.iff_eq {x : F64} (h : x.Represents a) : x.Represents b ↔ a = b := by
  cases x with
  | finite negative m =>
    have ha : signed negative (units m) = unitsOne * a := h
    show signed negative (units m) = unitsOne * b ↔ a = b
    rw [ha]
    exact mul_right_inj' (Int.natCast_ne_zero.2 unitsOne_pos.ne')
  | infinite _ => exact h.elim
  | nan => exact h.elim

/-- Within 2 to the 53 the sum is exact. -/
theorem roundedSum_of_small (h : (ns.map Int.natAbs).sum ≤ 2 ^ 53) : roundedSum ns = ns.sum := by
  have hfold : ∀ (ns : List ℤ) (k : ℤ), k.natAbs + (ns.map Int.natAbs).sum ≤ 2 ^ 53 →
      ns.foldl (fun acc n => roundInt (acc + n)) k = k + ns.sum := by
    intro ns
    induction ns with
    | nil => exact fun k _ => by rw [foldl_nil, sum_nil, add_zero]
    | cons n ns ih =>
      intro k hk
      rw [map_cons, sum_cons] at hk
      rw [foldl_cons, roundInt_of_small (by omega), ih (k + n) (by omega), sum_cons, add_assoc]
  rw [roundedSum, hfold ns 0 (by simpa using h), zero_add]

end F64

end FerroDruid.Lib
