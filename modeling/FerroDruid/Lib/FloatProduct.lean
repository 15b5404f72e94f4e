import FerroDruid.Lib.FloatOrder
import FerroDruid.Lib.FloatText
/-!
# Products of floats

Products, quotients and remainders, and sums and products of integers that floats
hold exactly.
-/

namespace FerroDruid.Lib.F64

/-- The nearest number to `n / d` units. -/
def ofRatio (negative : Bool) (n d : ℕ) : F64 :=
  if h : roundRatio n d < 2047 * 2 ^ 52 then finite negative ⟨roundRatio n d, h⟩ else infinite negative

def mul : F64 → F64 → F64
  | finite a m, finite b n => ofRatio (a ^^ b) (units m * units n) unitsOne
  | finite a m, infinite b => if m.val = 0 then nan else infinite (a ^^ b)
  | infinite a, finite b n => if n.val = 0 then nan else infinite (a ^^ b)
  | infinite a, infinite b => infinite (a ^^ b)
  | nan, _ => nan
  | _, nan => nan

def div : F64 → F64 → F64
  | finite a m, finite b n =>
    if n.val = 0 then if m.val = 0 then nan else infinite (a ^^ b)
    else ofRatio (a ^^ b) (units m * unitsOne) (units n)
  | finite a _, infinite b => zero (a ^^ b)
  | infinite a, finite b _ => infinite (a ^^ b)
  | infinite _, infinite _ => nan
  | nan, _ => nan
  | _, nan => nan

/-- The remainder with the sign of the dividend. -/
def rem : F64 → F64 → F64
  | finite a m, finite _ n => if n.val = 0 then nan else ofUnits a (units m % units n)
  | finite a m, infinite _ => finite a m
  | infinite _, _ => nan
  | nan, _ => nan
  | _, nan => nan

/-! ## Exact integers -/

/-- A float has this very value. -/
def Exact (n : ℤ) : Prop := (ofInt n).Represents n

theorem exact_of_small {n : ℤ} (h : n.natAbs ≤ 2 ^ 53) : Exact n := (represents_ofInt_iff h).2 rfl

variable {x y : F64} {a b : ℤ}

theorem represents_neg (h : x.Represents a) : x.neg.Represents (-a) := by
  cases x with
  | finite s m =>
    have hexact := exact_neg (finite s m)
    simp only [neg, exact] at hexact
    simp only [neg, Represents]
    rw [hexact, h, mul_neg]
  | infinite s => cases h
  | nan => cases h

theorem represents_add (hx : x.Represents a) (hy : y.Represents b) (h : Exact (a + b)) : (x.add y).Represents (a + b) := by
  rcases hx.add_eq hy with hsum | ⟨hzero, negative, hsum⟩
  · rwa [hsum]
  · rw [hsum, hzero]
    exact represents_zero negative

theorem represents_sub (hx : x.Represents a) (hy : y.Represents b) (h : Exact (a - b)) : (x.sub y).Represents (a - b) := by
  exact represents_add hx (represents_neg hy) h

theorem roundRatio_mul_left {d : ℕ} (hd : 0 < d) (n : ℕ) : roundRatio (d * n) d = roundBits n := by
  rw [roundRatio, roundBits, Nat.mul_div_cancel_left n hd, roundHalfEven_mul hd]

theorem represents_mul (hx : x.Represents a) (hy : y.Represents b) (h : Exact (a * b)) : (x.mul y).Represents (a * b) := by
  cases x with
  | infinite s => cases hx
  | nan => cases hx
  | finite s m =>
    cases y with
    | infinite t => cases hy
    | nan => cases hy
    | finite t n =>
      obtain ⟨hm, hs⟩ := units_of_represents hx
      obtain ⟨hn, ht⟩ := units_of_represents hy
      have hproduct : units m * units n = unitsOne * (unitsOne * (a * b).natAbs) := by
        rw [hm, hn, Int.natAbs_mul]
        ring
      rw [mul, hproduct, ofRatio, roundRatio_mul_left unitsOne_pos]
      by_cases hzero : a * b = 0
      · rw [hzero]
        simp [roundBits_eq_zero.2 rfl, Represents, signed, units]
      · obtain ⟨ha, hb⟩ := mul_ne_zero_iff.1 hzero
        have hsign : (s ^^ t) = decide (a * b < 0) := by
          rw [hs ha, ht hb]
          rcases lt_or_gt_of_ne ha with ha' | ha' <;> rcases lt_or_gt_of_ne hb with hb' | hb' <;>
            simp [mul_neg_iff, ha', hb', ha'.not_gt, hb'.not_gt]
        rw [hsign]
        exact h

end FerroDruid.Lib.F64
