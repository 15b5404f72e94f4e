import FerroDruid.Lib.Float64
import FerroDruid.Lib.Text
import Mathlib.Data.List.TakeWhile
/-!
# Floats in text

`f64::from_str`: the nearest binary64 number to a decimal one.
-/

namespace FerroDruid.Lib

namespace F64

/-- The bits of the nearest magnitude to `n / d` units. -/
def roundRatio (n d : ℕ) : ℕ := 2 ^ 52 * ((n / d).log2 - 52) + roundHalfEven n (d * 2 ^ ((n / d).log2 - 52))

/-- The nearest number to `digits` times ten to the `exponent`. -/
def ofDecimal (negative : Bool) (digits : ℕ) (exponent : ℤ) : F64 :=
  let bits := roundRatio (unitsOne * digits * 10 ^ exponent.toNat) (10 ^ (-exponent).toNat)
  if h : bits < 2047 * 2 ^ 52 then finite negative ⟨bits, h⟩ else infinite negative

theorem roundRatio_one (n : ℕ) : roundRatio n 1 = roundBits n := by rw [roundRatio, roundBits, Nat.div_one, Nat.one_mul]

theorem ofDecimal_zero (negative : Bool) (digits : ℕ) : ofDecimal negative digits 0 = ofUnits negative (unitsOne * digits) := by
  simp only [ofDecimal, ofUnits, Int.toNat_zero, Int.neg_zero, pow_zero, Nat.mul_one, roundRatio_one]

end F64

def digitsValue (bs : Bytes) : ℕ := bs.foldl (fun n b => 10 * n + (b.toNat - 0x30)) 0

/-- A leading minus, or plus, or neither. -/
def splitSign : Bytes → Bool × Bytes
  | 0x2D :: bs => (true, bs)
  | 0x2B :: bs => (false, bs)
  | bs => (false, bs)

def splitFraction : Bytes → Bytes × Bytes
  | 0x2E :: bs => (bs.takeWhile isDigit, bs.dropWhile isDigit)
  | bs => ([], bs)

/-- What stands after the digits: nothing, or an exponent. -/
def parseExponent : Bytes → Option ℤ
  | [] => some 0
  | e :: bs =>
    let (negative, digits) := splitSign bs
    if (e = 0x65 ∨ e = 0x45) ∧ digits ≠ [] ∧ digits.all isDigit then
      some (if negative then -(digitsValue digits : ℤ) else digitsValue digits)
    else none

def parseNumber (negative : Bool) (bs : Bytes) : Option F64 :=
  let whole := bs.takeWhile isDigit
  let (fraction, rest) := splitFraction (bs.dropWhile isDigit)
  if whole = [] ∧ fraction = [] then none
  else (parseExponent rest).map fun exponent => .ofDecimal negative (digitsValue (whole ++ fraction)) (exponent - fraction.length)

def lowerAscii (b : UInt8) : UInt8 := if 0x41 ≤ b ∧ b ≤ 0x5A then b + 0x20 else b

/-- `f64::from_str`. -/
def parseF64 (bs : Bytes) : Option F64 :=
  let (negative, bs) := splitSign bs
  let word := bs.map lowerAscii
  if word = ascii "inf" ∨ word = ascii "infinity" then some (.infinite negative)
  else if word = ascii "nan" then some .nan
  else parseNumber negative bs

theorem parseNumber_decimal (negative : Bool) (n : ℕ) : parseNumber negative (decimal n) = some (.ofUnits negative (F64.unitsOne * n)) := by
  have hall : ∀ b ∈ decimal n, isDigit b = true := fun b => isDigit_of_mem_decimal
  have htake : (decimal n).takeWhile isDigit = decimal n := List.takeWhile_eq_self_iff.2 hall
  have hdrop : (decimal n).dropWhile isDigit = [] := List.dropWhile_eq_nil_iff.2 hall
  have hvalue : digitsValue (decimal n) = n := foldl_decimal n
  simp only [parseNumber, htake, hdrop, splitFraction, decimal_ne_nil, false_and, if_false, parseExponent, Option.map_some, List.append_nil, hvalue,
    List.length_nil, Nat.cast_zero, Int.sub_zero, F64.ofDecimal_zero]

theorem lowerAscii_of_isDigit (b : UInt8) : isDigit b = true → lowerAscii b ≠ 0x69 ∧ lowerAscii b ≠ 0x6E ∧ b ≠ 0x2D ∧ b ≠ 0x2B :=
  UInt8.forall_of_fin (P := fun b => isDigit b = true → lowerAscii b ≠ 0x69 ∧ lowerAscii b ≠ 0x6E ∧ b ≠ 0x2D ∧ b ≠ 0x2B) (by decide +kernel) b

/-- An integer's text reads as the nearest float. -/
theorem parseF64_decimalInt (n : ℤ) : parseF64 (decimalInt n) = some (.ofInt n) := by
  obtain ⟨d, ds, hdecimal⟩ := List.exists_cons_of_ne_nil (decimal_ne_nil n.natAbs)
  obtain ⟨hi, hn, hminus, hplus⟩ := lowerAscii_of_isDigit d (isDigit_of_mem_decimal (hdecimal ▸ List.mem_cons_self ..))
  have hsplit : splitSign (decimalInt n) = (decide (n < 0), decimal n.natAbs) := by
    unfold decimalInt
    split_ifs with hneg
    · simp [splitSign, hneg]
    · rw [hdecimal, splitSign, decide_eq_false hneg]
      · rintro bs ⟨⟩
        exact hminus rfl
      · rintro bs ⟨⟩
        exact hplus rfl
  -- a digit is neither `i` nor `n`
  have hinf : ascii "inf" = [0x69, 0x6E, 0x66] := by decide
  have hinfinity : ascii "infinity" = [0x69, 0x6E, 0x66, 0x69, 0x6E, 0x69, 0x74, 0x79] := by decide
  have hnan : ascii "nan" = [0x6E, 0x61, 0x6E] := by decide
  have hword : ∀ x xs, lowerAscii d ≠ x → (decimal n.natAbs).map lowerAscii ≠ x :: xs := by
    intro x xs hx heq
    rw [hdecimal] at heq
    exact hx (List.cons.inj heq).1
  rw [parseF64, hsplit]
  simp only [hinf, hinfinity, hnan, hword _ _ hi, hword _ _ hn, or_self, if_false, parseNumber_decimal]
  rfl

end FerroDruid.Lib
