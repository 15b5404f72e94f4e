import FerroDruid.Lib.Bytes
/-!
# Packed bits

Bytes as bits, the most significant first. A number of some width is written as
its bits and read back from any window of bytes around them, shifted and masked.
-/

namespace FerroDruid.Lib

open List

/-! ## Numbers as bits -/

def natOfBits (bits : List Bool) : ℕ := bits.foldl (fun n b => 2 * n + b.toNat) 0

/-- The lowest `w` bits of a number. -/
def bitsOf : ℕ → ℕ → List Bool
  | 0, _ => []
  | w + 1, n => n.testBit w :: bitsOf w n

@[simp] theorem length_bitsOf (w n : ℕ) : (bitsOf w n).length = w := by
  induction w with
  | zero => rfl
  | succ w ih => simp [bitsOf, ih]

theorem natOfBits_append (xs ys : List Bool) : natOfBits (xs ++ ys) = natOfBits xs * 2 ^ ys.length + natOfBits ys := by
  have hfold : ∀ n, ys.foldl (fun n b => 2 * n + b.toNat) n = n * 2 ^ ys.length + natOfBits ys := by
    unfold natOfBits
    induction ys with
    | nil => simp
    | cons b ys ih =>
      intro n
      rw [foldl_cons, foldl_cons, ih, ih (2 * 0 + _), length_cons, pow_succ]
      ring
  rw [natOfBits, foldl_append]
  exact hfold _

variable (bits : List Bool)

theorem natOfBits_lt : natOfBits bits < 2 ^ bits.length := by
  induction bits using List.reverseRecOn with
  | nil => simp [natOfBits]
  | append_singleton bits b ih =>
    rw [natOfBits_append, length_append, length_singleton, pow_succ]
    have hb : natOfBits [b] ≤ 1 := by cases b <;> decide
    omega

theorem natOfBits_bitsOf (w n : ℕ) : natOfBits (bitsOf w n) = n % 2 ^ w := by
  induction w with
  | zero => simp [bitsOf, natOfBits, Nat.mod_one]
  | succ w ih =>
    have hbit : natOfBits [n.testBit w] = n / 2 ^ w % 2 := by
      rw [← Nat.toNat_testBit]
      cases n.testBit w <;> rfl
    rw [bitsOf, ← singleton_append, natOfBits_append, ih, length_bitsOf, hbit, Nat.mod_pow_succ]
    ring

/-- Bits of one length are told apart by their number. -/
theorem natOfBits_inj {xs ys : List Bool} (hlen : xs.length = ys.length) (h : natOfBits xs = natOfBits ys) : xs = ys := by
  induction xs using List.reverseRecOn generalizing ys with
  | nil => exact (eq_nil_of_length_eq_zero hlen.symm).symm
  | append_singleton xs b ih =>
    obtain ⟨ys, c, rfl⟩ : ∃ ys' c, ys = ys' ++ [c] := by
      rcases eq_nil_or_concat ys with rfl | hys
      · simp at hlen
      · simpa using hys
    have hlast : ∀ d : Bool, natOfBits [d] = d.toNat := by decide
    rw [natOfBits_append, natOfBits_append, hlast, hlast] at h
    simp only [length_append, length_singleton] at h hlen
    have hb := b.toNat_lt
    have hc := c.toNat_lt
    have hxs : xs = ys := ih (by omega) (by omega)
    have hbc : b.toNat = c.toNat := by omega
    rw [hxs]
    revert hbc
    cases b <;> cases c <;> simp

theorem bitsOf_natOfBits : bitsOf bits.length (natOfBits bits) = bits := by
  apply natOfBits_inj (length_bitsOf _ _)
  rw [natOfBits_bitsOf, Nat.mod_eq_of_lt (natOfBits_lt bits)]

/-- The middle of three, shifted and masked. -/
theorem natOfBits_middle (lead field trail : List Bool) :
    natOfBits (lead ++ field ++ trail) / 2 ^ trail.length % 2 ^ field.length = natOfBits field := by
  rw [natOfBits_append, Nat.mul_comm, Nat.mul_add_div (Nat.two_pow_pos _), Nat.div_eq_of_lt (natOfBits_lt trail), Nat.add_zero,
    natOfBits_append, Nat.mul_comm, Nat.mul_add_mod, Nat.mod_eq_of_lt (natOfBits_lt field)]

/-! ## Bytes as bits -/

def bitsOfBytes (bs : Bytes) : List Bool := bs.flatMap fun b => bitsOf 8 b.toNat

variable (bs : Bytes)

theorem length_bitsOfBytes : (bitsOfBytes bs).length = 8 * bs.length := by
  simp [bitsOfBytes, length_flatMap, Nat.mul_comm]

theorem bitsOfBytes_append (bs' : Bytes) : bitsOfBytes (bs ++ bs') = bitsOfBytes bs ++ bitsOfBytes bs' := flatMap_append

theorem bitsOfBytes_drop {bs : Bytes} {k : ℕ} (h : k ≤ bs.length) : bitsOfBytes (bs.drop k) = (bitsOfBytes bs).drop (8 * k) := by
  have hlen : (bitsOfBytes (bs.take k)).length = 8 * k := by
    rw [length_bitsOfBytes, length_take, min_eq_left h]
  conv_rhs => rw [← take_append_drop k bs, bitsOfBytes_append, ← hlen, drop_left]

theorem bitsOfBytes_take {bs : Bytes} {k : ℕ} (h : k ≤ bs.length) : bitsOfBytes (bs.take k) = (bitsOfBytes bs).take (8 * k) := by
  have hlen : (bitsOfBytes (bs.take k)).length = 8 * k := by
    rw [length_bitsOfBytes, length_take, min_eq_left h]
  conv_rhs => rw [← take_append_drop k bs, bitsOfBytes_append, ← hlen, take_left]

/-- Bytes gathered into a number. -/
theorem foldl_bytes : bs.foldl (fun acc b => acc <<< 8 ||| b.toNat) 0 = natOfBits (bitsOfBytes bs) := by
  induction bs using List.reverseRecOn with
  | nil => rfl
  | append_singleton bs b ih =>
    have hone : natOfBits (bitsOfBytes [b]) = b.toNat := by
      rw [bitsOfBytes, flatMap_singleton, natOfBits_bitsOf, Nat.mod_eq_of_lt b.toNat_lt]
    rw [foldl_append, foldl_cons, foldl_nil, ih, ← Nat.shiftLeft_add_eq_or_of_lt b.toNat_lt, Nat.shiftLeft_eq,
      bitsOfBytes_append, natOfBits_append, hone, length_bitsOfBytes]
    rfl

/-- The last byte is filled up with zeros. -/
def bytesOfBits (bits : List Bool) : Bytes :=
  (List.range ((bits.length + 7) / 8)).map fun j => UInt8.ofNat (natOfBits (((bits.drop (8 * j)).take 8).rightpad 8 false))

@[simp] theorem length_bytesOfBits : (bytesOfBits bits).length = (bits.length + 7) / 8 := by
  simp [bytesOfBits]

theorem bytesOfBits_append {byte : List Bool} (h : byte.length = 8) (bits : List Bool) :
    bytesOfBits (byte ++ bits) = UInt8.ofNat (natOfBits byte) :: bytesOfBits bits := by
  have hcount : ((byte ++ bits).length + 7) / 8 = (bits.length + 7) / 8 + 1 := by
    rw [length_append]
    omega
  have hdrop : ∀ j, (byte ++ bits).drop (8 * (j + 1)) = bits.drop (8 * j) := by
    intro j
    rw [Nat.mul_succ, Nat.add_comm, ← drop_drop, ← h, drop_left]
  unfold bytesOfBits
  rw [hcount, range_succ_eq_map, map_cons, map_map]
  congr 1
  · rw [Nat.mul_zero, drop_zero, ← h, take_left]
    simp [List.rightpad]
  · apply map_congr_left
    intro j _
    simp only [Function.comp, Nat.succ_eq_add_one, hdrop]

theorem bitsOf_byte {byte : List Bool} (h : byte.length = 8) : bitsOf 8 (UInt8.ofNat (natOfBits byte)).toNat = byte := by
  have hlt := natOfBits_lt byte
  rw [h] at hlt
  rw [UInt8.toNat_ofNat_of_lt' hlt, ← h]
  exact bitsOf_natOfBits byte

theorem bitsOfBytes_bytesOfBits :
    bitsOfBytes (bytesOfBits bits) = bits ++ List.replicate (8 * ((bits.length + 7) / 8) - bits.length) false := by
  induction hn : bits.length using Nat.strong_induction_on generalizing bits with
  | _ n ih =>
    subst hn
    rcases Nat.lt_or_ge bits.length 8 with hlt | hge
    · rcases Nat.eq_zero_or_pos bits.length with hzero | hpos
      · rw [eq_nil_of_length_eq_zero hzero]
        rfl
      · -- one byte, filled up
        have hbyte : (bits.rightpad 8 false).length = 8 := by simp [List.rightpad]; omega
        have hone : (bits.length + 7) / 8 = 1 := by omega
        have hbytes : bytesOfBits bits = [UInt8.ofNat (natOfBits (bits.rightpad 8 false))] := by
          simp [bytesOfBits, hone, List.rightpad, take_of_length_le hlt.le, min_eq_right hlt.le]
        rw [hbytes, hone, bitsOfBytes, flatMap_singleton, bitsOf_byte hbyte]
        rfl
    · have hbyte : (bits.take 8).length = 8 := by simp [hge]
      have hrest : (bits.drop 8).length = bits.length - 8 := length_drop
      conv_lhs => rw [← take_append_drop 8 bits, bytesOfBits_append hbyte, ← singleton_append, bitsOfBytes_append]
      rw [ih _ (by omega) (bits.drop 8) rfl, bitsOfBytes, flatMap_singleton, bitsOf_byte hbyte, ← append_assoc, take_append_drop, hrest]
      congr 2
      omega

end FerroDruid.Lib
