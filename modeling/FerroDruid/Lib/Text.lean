import FerroDruid.Lib.Utf8
/-!
# Text as bytes

Trimming and decimal numbers on UTF-8 text, as `str::trim`, `Display` and
`usize::from_str` have them.
-/

namespace FerroDruid.Lib

open List

/-- The bytes of ASCII text. -/
def ascii (s : String) : Bytes := s.toList.map fun ch => UInt8.ofNat ch.toNat

/-! ## White space -/

/-- The characters that `char::is_whitespace` holds for. -/
def whitespace : List Bytes :=
  [[0x09], [0x0A], [0x0B], [0x0C], [0x0D], [0x20], [0xC2, 0x85], [0xC2, 0xA0], [0xE1, 0x9A, 0x80], [0xE2, 0x80, 0x80],
    [0xE2, 0x80, 0x81], [0xE2, 0x80, 0x82], [0xE2, 0x80, 0x83], [0xE2, 0x80, 0x84], [0xE2, 0x80, 0x85], [0xE2, 0x80, 0x86],
    [0xE2, 0x80, 0x87], [0xE2, 0x80, 0x88], [0xE2, 0x80, 0x89], [0xE2, 0x80, 0x8A], [0xE2, 0x80, 0xA8], [0xE2, 0x80, 0xA9],
    [0xE2, 0x80, 0xAF], [0xE2, 0x81, 0x9F], [0xE3, 0x80, 0x80]]

def StartsWithSpace (bs : Bytes) : Prop := ∃ w ∈ whitespace, w <+: bs

instance (bs : Bytes) : Decidable (StartsWithSpace bs) := inferInstanceAs (Decidable (∃ w ∈ whitespace, w <+: bs))

/-- Drop leading white space, as much of it as there is fuel. -/
def trimStartLoop : ℕ → Bytes → Bytes
  | 0, bs => bs
  | fuel + 1, bs =>
    match whitespace.find? (· <+: bs) with
    | some w => trimStartLoop fuel (bs.drop w.length)
    | none => bs

def trimStart (bs : Bytes) : Bytes := trimStartLoop bs.length bs

def trimEndLoop : ℕ → Bytes → Bytes
  | 0, bs => bs
  | fuel + 1, bs =>
    match whitespace.find? (· <:+ bs) with
    | some w => trimEndLoop fuel (bs.take (bs.length - w.length))
    | none => bs

def trimEnd (bs : Bytes) : Bytes := trimEndLoop bs.length bs

/-- `str::trim`. -/
def trim (bs : Bytes) : Bytes := trimEnd (trimStart bs)

theorem length_pos_of_mem_whitespace : ∀ w ∈ whitespace, 0 < w.length := by decide

variable {bs : Bytes}

theorem find_whitespace_eq_none : whitespace.find? (· <+: bs) = none ↔ ¬ StartsWithSpace bs := by
  simp [StartsWithSpace, find?_eq_none]

theorem trimStart_of_not_space (h : ¬ StartsWithSpace bs) : trimStart bs = bs := by
  unfold trimStart
  cases bs.length with
  | zero => rfl
  | succ n =>
    unfold trimStartLoop
    rw [find_whitespace_eq_none.2 h]

theorem not_space_trimStartLoop {fuel : ℕ} (h : bs.length ≤ fuel) : ¬ StartsWithSpace (trimStartLoop fuel bs) := by
  induction fuel generalizing bs with
  | zero =>
    obtain rfl := eq_nil_of_length_eq_zero (Nat.le_zero.1 h)
    decide
  | succ fuel ih =>
    unfold trimStartLoop
    cases hf : whitespace.find? (· <+: bs) with
    | none => exact find_whitespace_eq_none.1 hf
    | some w =>
      have hpos := length_pos_of_mem_whitespace w (mem_of_find?_eq_some hf)
      refine ih ?_
      rw [length_drop]
      omega

theorem StartsWithSpace.mono {bs' : Bytes} (h : StartsWithSpace bs) (hp : bs <+: bs') : StartsWithSpace bs' := by
  obtain ⟨w, hw, hwp⟩ := h
  exact ⟨w, hw, hwp.trans hp⟩

theorem prefix_trimEndLoop (fuel : ℕ) (bs : Bytes) : trimEndLoop fuel bs <+: bs := by
  induction fuel generalizing bs with
  | zero => exact prefix_rfl
  | succ fuel ih =>
    unfold trimEndLoop
    split
    · exact (ih _).trans (List.take_prefix _ _)
    · exact prefix_rfl

/-- Trimmed text does not begin with white space. -/
theorem not_space_trim (bs : Bytes) : ¬ StartsWithSpace (trim bs) := by
  intro h
  exact not_space_trimStartLoop le_rfl (h.mono (prefix_trimEndLoop _ _))

def isDigit (b : UInt8) : Bool := 0x30 ≤ b && b ≤ 0x39

theorem not_isDigit_whitespace : ∀ w ∈ whitespace, ∀ b ∈ w.getLast?, isDigit b = false := by
  have hall : ∀ w ∈ whitespace, w.getLast?.all (fun b => !isDigit b) = true := by decide
  intro w hw b hb
  have hlast := hall w hw
  rw [Option.mem_def.1 hb, Option.all_some, Bool.not_eq_true'] at hlast
  exact hlast

/-- Text that ends with a digit has nothing to trim there. -/
theorem trimEnd_of_digit {b : UInt8} (hlast : bs.getLast? = some b) (hb : isDigit b = true) : trimEnd bs = bs := by
  have hnone : whitespace.find? (· <:+ bs) = none := by
    rw [find?_eq_none]
    intro w hw hs
    obtain ⟨t, rfl⟩ := of_decide_eq_true hs
    have hne := ne_nil_of_length_pos (length_pos_of_mem_whitespace w hw)
    rw [getLast?_append_of_ne_nil _ hne] at hlast
    exact absurd hb (by rw [not_isDigit_whitespace w hw b hlast]; decide)
  unfold trimEnd
  cases bs.length with
  | zero => rfl
  | succ n =>
    unfold trimEndLoop
    rw [hnone]

/-- White space is one character: a string that does not begin with it does not
begin with it either when something follows. -/
theorem not_space_append {s : Utf8} (hne : s.bytes ≠ []) (h : ¬ StartsWithSpace s.bytes) (t : Bytes) :
    ¬ StartsWithSpace (s.bytes ++ t) := by
  rintro ⟨w, hw, hp⟩
  rcases Nat.lt_or_ge s.bytes.length w.length with hlt | hle
  · -- the string would be a part of a character
    have hcut : ∀ w ∈ whitespace, ∀ k < w.length, 0 < k → validUtf8 (w.take k) = false := by decide
    have hs : s.bytes = w.take s.bytes.length := by
      obtain ⟨r, hr⟩ := hp
      have htake := congrArg (List.take s.bytes.length) hr
      rw [take_append_of_le_length hlt.le, take_left] at htake
      exact htake.symm
    have hinvalid := hcut w hw _ hlt (length_pos_of_ne_nil hne)
    rw [← hs, s.valid] at hinvalid
    cases hinvalid
  · exact h ⟨w, hw, prefix_of_prefix_length_le hp (prefix_append _ _) hle⟩

/-! ## Decimal numbers -/

def decimal (n : ℕ) : Bytes := (Nat.toDigits 10 n).map fun c => UInt8.ofNat c.toNat

/-- An optional plus sign, then digits, within 64 bits. -/
def parseUsize (bs : Bytes) : Option ℕ :=
  let digits := if bs.head? = some 0x2B then bs.tail else bs
  if digits ≠ [] ∧ digits.all isDigit then
    let n := digits.foldl (fun n b => 10 * n + (b.toNat - 0x30)) 0
    if n < 2 ^ 64 then some n else none
  else none

theorem toNat_of_isDigit {c : Char} (h : c.isDigit = true) : 0x30 ≤ c.toNat ∧ c.toNat ≤ 0x39 := by
  simp only [Char.isDigit, Bool.and_eq_true, decide_eq_true_eq, ge_iff_le, UInt32.le_iff_toNat_le] at h
  exact h

theorem isDigit_ofNat {n : ℕ} (h : 0x30 ≤ n ∧ n ≤ 0x39) : isDigit (UInt8.ofNat n) = true ∧ (UInt8.ofNat n).toNat = n := by
  have hn : (UInt8.ofNat n).toNat = n := by
    rw [UInt8.toNat_ofNat']
    omega
  refine ⟨?_, hn⟩
  simp only [isDigit, Bool.and_eq_true, decide_eq_true_eq, UInt8.le_iff_toNat_le, hn]
  exact h

theorem isDigit_of_mem_decimal {n : ℕ} {b : UInt8} (h : b ∈ decimal n) : isDigit b = true := by
  obtain ⟨c, hc, rfl⟩ := mem_map.1 h
  exact (isDigit_ofNat (toNat_of_isDigit (Nat.isDigit_of_mem_toDigits (by omega) (by omega) hc))).1

theorem decimal_ne_nil (n : ℕ) : decimal n ≠ [] := by
  unfold decimal
  rw [Ne, map_eq_nil_iff]
  exact Nat.toDigits_ne_nil

theorem foldl_decimal (n : ℕ) : (decimal n).foldl (fun n b => 10 * n + (b.toNat - 0x30)) 0 = n := by
  have hchars : ∀ (cs : List Char) (init : ℕ), (∀ c ∈ cs, c.isDigit = true) →
      (cs.map fun c => UInt8.ofNat c.toNat).foldl (fun n b => 10 * n + (b.toNat - 0x30)) init = Nat.ofDigitChars 10 cs init := by
    intro cs
    induction cs with
    | nil => exact fun _ _ => rfl
    | cons c cs ih =>
      intro init h
      obtain ⟨hc, hcs⟩ := forall_mem_cons.1 h
      rw [map_cons, foldl_cons, ih _ hcs, (isDigit_ofNat (toNat_of_isDigit hc)).2, Nat.ofDigitChars_cons]
      rfl
  rw [decimal, hchars _ _ fun c hc => Nat.isDigit_of_mem_toDigits (by omega) (by omega) hc, Nat.ofDigitChars_ten_toDigits]

/-- A number reads back from its digits. -/
theorem parseUsize_decimal {n : ℕ} (h : n < 2 ^ 64) : parseUsize (decimal n) = some n := by
  have hplus : (decimal n).head? ≠ some 0x2B := by
    intro hh
    exact absurd (isDigit_of_mem_decimal (mem_of_head? hh)) (by decide)
  have hall : (decimal n).all isDigit = true := all_eq_true.2 fun b => isDigit_of_mem_decimal
  unfold parseUsize
  simp only [if_neg hplus, foldl_decimal]
  rw [if_pos ⟨decimal_ne_nil n, hall⟩, if_pos h]

/-! ## Signed numbers -/

def decimalInt (n : ℤ) : Bytes := if n < 0 then 0x2D :: decimal n.natAbs else decimal n.natAbs

/-- `i64::from_str`: an optional sign, then digits, within 64 bits. -/
def parseLong (bs : Bytes) : Option Int64 :=
  let digits := if bs.head? = some 0x2D ∨ bs.head? = some 0x2B then bs.tail else bs
  if digits ≠ [] ∧ digits.all isDigit then
    let n : ℤ := (digits.foldl (fun n b => 10 * n + (b.toNat - 0x30)) 0 : ℕ)
    let v := if bs.head? = some 0x2D then -n else n
    if -2 ^ 63 ≤ v ∧ v < 2 ^ 63 then some (Int64.ofInt v) else none
  else none

theorem decimal_injective : Function.Injective decimal := fun n m h => by
  rw [← foldl_decimal n, ← foldl_decimal m, h]

theorem decimalInt_injective : Function.Injective decimalInt := by
  have hminus : ∀ n bs, decimal n ≠ 0x2D :: bs := fun n bs h =>
    absurd (isDigit_of_mem_decimal (h ▸ mem_cons_self : (0x2D : UInt8) ∈ decimal n)) (by decide)
  intro n m h
  unfold decimalInt at h
  split_ifs at h with hn hm hm
  · have habs := decimal_injective (List.cons.inj h).2
    omega
  · exact absurd h.symm (hminus _ _)
  · exact absurd h (hminus _ _)
  · have habs := decimal_injective h
    omega

end FerroDruid.Lib
