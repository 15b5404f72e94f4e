import FerroDruid.Lib.Utf8
/-!
# Base64

The standard alphabet with padding: four characters for three bytes, and canonical
ends. What was encoded is decoded to itself.
-/

namespace FerroDruid.Lib.Base64

def pad : UInt8 := 0x3D

/-- Letters, digits, plus and slash. -/
def digit (n : ℕ) : UInt8 :=
  if n < 26 then UInt8.ofNat (0x41 + n)
  else if n < 52 then UInt8.ofNat (0x61 + (n - 26))
  else if n < 62 then UInt8.ofNat (0x30 + (n - 52))
  else if n = 62 then 0x2B
  else 0x2F

def value (c : UInt8) : Option ℕ := (List.range 64).find? fun n => digit n = c

variable {n : ℕ}

/-- The character of a digit. -/
theorem toNat_digit (h : n < 64) : (digit n).toNat =
    if n < 26 then 65 + n else if n < 52 then 71 + n else if n < 62 then n - 4 else if n = 62 then 43 else 47 := by
  unfold digit
  split_ifs
  · rw [UInt8.toNat_ofNat']
    omega
  · rw [UInt8.toNat_ofNat']
    omega
  · rw [UInt8.toNat_ofNat']
    omega
  · rfl
  · rfl

theorem digit_inj {m : ℕ} (hm : m < 64) (hn : n < 64) (h : digit m = digit n) : m = n := by
  have hnat := congrArg UInt8.toNat h
  rw [toNat_digit hm, toNat_digit hn] at hnat
  grind

theorem value_digit (h : n < 64) : value (digit n) = some n := by
  rw [value, List.find?_range_eq_some]
  refine ⟨by simp, List.mem_range.2 h, fun m hm => ?_⟩
  simp only [Bool.not_eq_true', decide_eq_false_iff_not]
  exact fun heq => hm.ne (digit_inj (hm.trans h) h heq)

theorem digit_ne_pad (h : n < 64) : digit n ≠ pad := by
  intro heq
  have hnat := congrArg UInt8.toNat heq
  rw [toNat_digit h] at hnat
  change _ = 61 at hnat
  split_ifs at hnat <;> omega

theorem ascii_digit (h : n < 64) : digit n < 0x80 := by
  rw [UInt8.lt_iff_toNat_lt, toNat_digit h]
  change _ < 128
  split_ifs <;> omega

def encode : Bytes → Bytes
  | [] => []
  | [a] => [digit (a.toNat * 16 / 64), digit (a.toNat * 16 % 64), pad, pad]
  | [a, b] =>
    let n := (a.toNat * 256 + b.toNat) * 4
    [digit (n / 4096), digit (n / 64 % 64), digit (n % 64), pad]
  | a :: b :: c :: bs =>
    let n := a.toNat * 65536 + b.toNat * 256 + c.toNat
    digit (n / 262144) :: digit (n / 4096 % 64) :: digit (n / 64 % 64) :: digit (n % 64) :: encode bs

/-- The end of a text: one byte or two, and no bits left over. -/
def decodeEnd (w x y : UInt8) : Option Bytes := do
  let n := (← value w) * 64 + (← value x)
  if y = pad then if n % 16 ≠ 0 then none else return [UInt8.ofNat (n / 16)]
  else
    let n := n * 64 + (← value y)
    if n % 4 ≠ 0 then none else return [UInt8.ofNat (n / 1024), UInt8.ofNat (n / 4)]

def decode : Bytes → Option Bytes
  | [] => some []
  | w :: x :: y :: z :: cs =>
    if cs = [] ∧ z = pad then decodeEnd w x y
    else do
      let n := (((← value w) * 64 + (← value x)) * 64 + (← value y)) * 64 + (← value z)
      let bs ← decode cs
      return UInt8.ofNat (n / 65536) :: UInt8.ofNat (n / 256) :: UInt8.ofNat n :: bs
  | _ => none

theorem ofNat_eq {b : UInt8} (h : n % 256 = b.toNat) : UInt8.ofNat n = b := by
  apply UInt8.toNat_inj.1
  rw [UInt8.toNat_ofNat', ← h]

theorem decode_encode (bs : Bytes) : decode (encode bs) = some bs := by
  fun_induction encode bs with
  | case1 => rfl
  | case2 a =>
    have ha := a.toNat_lt
    have hn : a.toNat * 16 / 64 * 64 + a.toNat * 16 % 64 = a.toNat * 16 := Nat.div_add_mod' _ _
    simp [decode, decodeEnd, value_digit (show a.toNat * 16 / 64 < 64 by omega), value_digit (show a.toNat * 16 % 64 < 64 by omega), hn]
  | case3 a b n =>
    have ha := a.toNat_lt
    have hb := b.toNat_lt
    have hall : (n / 4096 * 64 + n / 64 % 64) * 64 + n % 64 = n := by omega
    have hfirst : UInt8.ofNat (n / 1024) = a := ofNat_eq (by omega)
    have hsecond : UInt8.ofNat (n / 4) = b := ofNat_eq (by omega)
    have hleft : n % 4 = 0 := by omega
    rw [decode, if_pos ⟨rfl, rfl⟩, decodeEnd, value_digit (show n / 4096 < 64 by omega), value_digit (show n / 64 % 64 < 64 by omega),
      value_digit (show n % 64 < 64 by omega)]
    simp only [Option.bind_eq_bind, Option.bind_some, if_neg (digit_ne_pad (show n % 64 < 64 by omega)), hall, hleft, hfirst, hsecond, ne_eq,
      not_true_eq_false, if_false]
    rfl
  | case4 a b c bs n ih =>
    have ha := a.toNat_lt
    have hb := b.toNat_lt
    have hc := c.toNat_lt
    have hall : ((n / 262144 * 64 + n / 4096 % 64) * 64 + n / 64 % 64) * 64 + n % 64 = n := by omega
    have hfirst : UInt8.ofNat (n / 65536) = a := ofNat_eq (by omega)
    have hsecond : UInt8.ofNat (n / 256) = b := ofNat_eq (by omega)
    have hthird : UInt8.ofNat n = c := ofNat_eq (by omega)
    rw [decode, if_neg fun h => digit_ne_pad (show n % 64 < 64 by omega) h.2, value_digit (show n / 262144 < 64 by omega),
      value_digit (show n / 4096 % 64 < 64 by omega), value_digit (show n / 64 % 64 < 64 by omega), value_digit (show n % 64 < 64 by omega), ih]
    simp only [Option.bind_eq_bind, Option.bind_some, hall, hfirst, hsecond, hthird]
    rfl

theorem ascii_encode (bs : Bytes) : ∀ c ∈ encode bs, c < 0x80 := by
  have hpad : pad < 0x80 := by decide
  fun_induction encode bs with
  | case1 => simp
  | case2 a =>
    have ha := a.toNat_lt
    simp [ascii_digit (show a.toNat * 16 / 64 < 64 by omega), ascii_digit (show a.toNat * 16 % 64 < 64 by omega), hpad]
  | case3 a b n =>
    have ha := a.toNat_lt
    have hb := b.toNat_lt
    simp [ascii_digit (show n / 4096 < 64 by omega), ascii_digit (show n / 64 % 64 < 64 by omega), ascii_digit (show n % 64 < 64 by omega), hpad]
  | case4 a b c bs n ih =>
    have ha := a.toNat_lt
    have hb := b.toNat_lt
    have hc := c.toNat_lt
    simp only [List.forall_mem_cons]
    exact ⟨ascii_digit (by omega), ascii_digit (by omega), ascii_digit (by omega), ascii_digit (by omega), ih⟩

end FerroDruid.Lib.Base64
