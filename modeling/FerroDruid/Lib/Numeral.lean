import FerroDruid.Lib.Text
import Mathlib.Algebra.Order.Group.Nat
/-!
# Decimal numerals

Numerals without leading zeros, of any length, are in the order of their numbers
when the longer one is the larger and equally long ones are compared as text.
-/

namespace FerroDruid.Lib

open List

def digitValue (b : UInt8) : ℕ := b.toNat - 0x30

/-- The number that digits stand for. -/
def numeralValue (bs : Bytes) : ℕ := bs.foldl (fun n b => 10 * n + digitValue b) 0

/-- Some digits, the first of several not a zero. -/
structure IsCanonical (bs : Bytes) : Prop where
  digits : ∀ b ∈ bs, isDigit b = true
  first : bs = [0x30] ∨ ∃ b bs', bs = b :: bs' ∧ b ≠ 0x30

/-- Without its leading zeros, and not empty. -/
def canonical (bs : Bytes) : Bytes :=
  let stripped := bs.dropWhile (· = 0x30)
  if stripped.isEmpty then [0x30] else stripped

variable {bs : Bytes}

theorem isCanonical_canonical (h : ∀ b ∈ bs, isDigit b = true) : IsCanonical (canonical bs) := by
  have hsubset : bs.dropWhile (· = 0x30) ⊆ bs := (dropWhile_sublist _).subset
  have hhead := fun hne => head_dropWhile_not (fun c : UInt8 => decide (c = 0x30)) (l := bs) hne
  unfold canonical
  cases hstripped : bs.dropWhile (· = 0x30) with
  | nil => exact ⟨by simp [isDigit], .inl rfl⟩
  | cons b bs' =>
    rw [hstripped] at hsubset
    refine ⟨fun c hc => h c (hsubset hc), .inr ⟨b, bs', rfl, ?_⟩⟩
    simpa [hstripped] using hhead (by simp [hstripped])

/-! ## Numbers -/

theorem digit_bounds {b : UInt8} (h : isDigit b = true) : 0x30 ≤ b.toNat ∧ b.toNat ≤ 0x39 := by
  simpa [isDigit, UInt8.le_iff_toNat_le] using h

theorem foldl_digits (bs : Bytes) (n : ℕ) : bs.foldl (fun n b => 10 * n + digitValue b) n = n * 10 ^ bs.length + numeralValue bs := by
  induction bs generalizing n with
  | nil => simp [numeralValue]
  | cons b bs ih =>
    rw [numeralValue, foldl_cons, foldl_cons, ih, ih (10 * 0 + _), length_cons]
    ring

theorem numeralValue_cons (b : UInt8) (bs : Bytes) : numeralValue (b :: bs) = digitValue b * 10 ^ bs.length + numeralValue bs := by
  rw [numeralValue, foldl_cons, foldl_digits, mul_zero, zero_add]

theorem numeralValue_lt (h : ∀ b ∈ bs, isDigit b = true) : numeralValue bs < 10 ^ bs.length := by
  induction bs with
  | nil => simp [numeralValue]
  | cons b bs ih =>
    obtain ⟨hb, hbs⟩ := forall_mem_cons.1 h
    have hdigit : digitValue b ≤ 9 := by
      have := digit_bounds hb
      unfold digitValue
      omega
    have hmul : digitValue b * 10 ^ bs.length ≤ 9 * 10 ^ bs.length := Nat.mul_le_mul_right _ hdigit
    have hrest := ih hbs
    rw [numeralValue_cons, length_cons, pow_succ]
    omega

/-! ## Order -/

def compareBytes (x y : UInt8) : Ordering := compare x.toNat y.toNat

/-- A longer number is larger, and equally long ones are compared digit by digit. -/
def compareNumerals (a b : Bytes) : Ordering := (compare a.length b.length).then (a.compareLex compareBytes b)

/-- The first digit of a canonical numeral of several digits counts. -/
theorem IsCanonical.pow_le (h : IsCanonical bs) (hlen : 1 < bs.length) : 10 ^ (bs.length - 1) ≤ numeralValue bs := by
  rcases h.first with rfl | ⟨b, bs', rfl, hb⟩
  · simp at hlen
  · have hdigit : 1 ≤ digitValue b := by
      have hbounds := digit_bounds (h.digits b (mem_cons_self ..))
      have hne : b.toNat ≠ 0x30 := fun heq => hb (UInt8.toNat_inj.1 heq)
      unfold digitValue
      omega
    rw [numeralValue_cons, length_cons, Nat.add_sub_cancel]
    exact (Nat.le_mul_of_pos_left _ hdigit).trans (Nat.le_add_right _ _)

variable {a b : Bytes}

theorem IsCanonical.lt_of_length_lt (ha : IsCanonical a) (hb : IsCanonical b) (h : a.length < b.length) :
    numeralValue a < numeralValue b := by
  have hpos : 0 < a.length := by
    rcases ha.first with rfl | ⟨x, a', rfl, -⟩ <;> simp
  calc numeralValue a < 10 ^ a.length := numeralValue_lt ha.digits
    _ ≤ 10 ^ (b.length - 1) := Nat.pow_le_pow_right (by omega) (by omega)
    _ ≤ numeralValue b := hb.pow_le (by omega)

/-- Equally long numerals are in the order of their digits. -/
theorem compare_digits (ha : ∀ x ∈ a, isDigit x = true) (hb : ∀ x ∈ b, isDigit x = true) (hlen : a.length = b.length) :
    a.compareLex compareBytes b = compare (numeralValue a) (numeralValue b) := by
  induction a generalizing b with
  | nil =>
    obtain rfl : b = [] := eq_nil_of_length_eq_zero hlen.symm
    rfl
  | cons x a ih =>
    obtain _ | ⟨y, b⟩ := b
    · simp at hlen
    obtain ⟨hx, ha⟩ := forall_mem_cons.1 ha
    obtain ⟨hy, hb⟩ := forall_mem_cons.1 hb
    have hlen : a.length = b.length := by simpa using hlen
    have hxbounds := digit_bounds hx
    have hybounds := digit_bounds hy
    have halt := numeralValue_lt ha
    have hblt := numeralValue_lt hb
    rw [List.compareLex_cons_cons, compareBytes, numeralValue_cons, numeralValue_cons, ih ha hb hlen, hlen]
    rw [hlen] at halt
    rcases lt_trichotomy x.toNat y.toNat with hlt | heq | hgt
    · have hdigit : digitValue x + 1 ≤ digitValue y := by unfold digitValue; omega
      have hmul := Nat.mul_le_mul_right (10 ^ b.length) hdigit
      rw [Nat.add_mul, one_mul] at hmul
      have hvalue : digitValue x * 10 ^ b.length + numeralValue a < digitValue y * 10 ^ b.length + numeralValue b := by omega
      rw [Nat.compare_eq_lt.2 hlt, Nat.compare_eq_lt.2 hvalue]
      rfl
    · obtain rfl := UInt8.toNat_inj.1 heq
      rw [Nat.compare_eq_eq.2 rfl]
      rcases lt_trichotomy (numeralValue a) (numeralValue b) with h | h | h
      · rw [Nat.compare_eq_lt.2 h, Nat.compare_eq_lt.2 (Nat.add_lt_add_left h _)]
        rfl
      · rw [h, Nat.compare_eq_eq.2 rfl, Nat.compare_eq_eq.2 rfl]
        rfl
      · rw [Nat.compare_eq_gt.2 h, Nat.compare_eq_gt.2 (Nat.add_lt_add_left h _)]
        rfl
    · have hdigit : digitValue y + 1 ≤ digitValue x := by unfold digitValue; omega
      have hmul := Nat.mul_le_mul_right (10 ^ b.length) hdigit
      rw [Nat.add_mul, one_mul] at hmul
      have hvalue : digitValue y * 10 ^ b.length + numeralValue b < digitValue x * 10 ^ b.length + numeralValue a := by omega
      rw [Nat.compare_eq_gt.2 hgt, Nat.compare_eq_gt.2 hvalue]
      rfl

/-- Canonical numerals are in the order of their numbers. -/
theorem compareNumerals_eq (ha : IsCanonical a) (hb : IsCanonical b) :
    compareNumerals a b = compare (numeralValue a) (numeralValue b) := by
  unfold compareNumerals
  rcases lt_trichotomy a.length b.length with hlt | heq | hgt
  · rw [Nat.compare_eq_lt.2 hlt, Nat.compare_eq_lt.2 (ha.lt_of_length_lt hb hlt)]
    rfl
  · rw [Nat.compare_eq_eq.2 heq, compare_digits ha.digits hb.digits heq]
    rfl
  · rw [Nat.compare_eq_gt.2 hgt, Nat.compare_eq_gt.2 (hb.lt_of_length_lt ha hgt)]
    rfl

/-- A number has one canonical numeral. -/
theorem numeralValue_inj (ha : IsCanonical a) (hb : IsCanonical b) (h : numeralValue a = numeralValue b) : a = b := by
  have hlen : a.length = b.length := by
    rcases lt_trichotomy a.length b.length with hlt | heq | hgt
    · exact absurd h (ha.lt_of_length_lt hb hlt).ne
    · exact heq
    · exact absurd h.symm (hb.lt_of_length_lt ha hgt).ne
  have hdigits : ∀ {a b : Bytes}, (∀ x ∈ a, isDigit x = true) → (∀ x ∈ b, isDigit x = true) → a.length = b.length →
      numeralValue a = numeralValue b → a = b := by
    intro a b ha hb hlen h
    induction a generalizing b with
    | nil => exact (eq_nil_of_length_eq_zero hlen.symm).symm
    | cons x a ih =>
      obtain _ | ⟨y, b⟩ := b
      · simp at hlen
      obtain ⟨hx, ha⟩ := forall_mem_cons.1 ha
      obtain ⟨hy, hb⟩ := forall_mem_cons.1 hb
      have hlen : a.length = b.length := by simpa using hlen
      have halt := numeralValue_lt ha
      have hblt := numeralValue_lt hb
      rw [numeralValue_cons, numeralValue_cons, hlen] at h
      rw [hlen] at halt
      have hpos : 0 < 10 ^ b.length := Nat.pow_pos (by omega)
      have hdiv : digitValue x = digitValue y := by
        have hl := congrArg (· / 10 ^ b.length) h
        simpa [Nat.mul_comm _ (10 ^ b.length), Nat.mul_add_div hpos, Nat.div_eq_of_lt halt, Nat.div_eq_of_lt hblt] using hl
      have hxy : x = y := by
        have hxbounds := digit_bounds hx
        have hybounds := digit_bounds hy
        unfold digitValue at hdiv
        exact UInt8.toNat_inj.1 (by omega)
      rw [hxy, ih ha hb hlen (by rw [hdiv] at h; omega)]
  exact hdigits ha.digits hb.digits hlen h

end FerroDruid.Lib
