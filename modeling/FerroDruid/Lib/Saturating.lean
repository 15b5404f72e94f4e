import Mathlib.Data.Nat.Basic
import Mathlib.Algebra.Group.Int.Defs
import Mathlib.Algebra.GroupWithZero.Nat
/-!
# Saturating arithmetic

`u64::saturating_add`, `u64::saturating_sub` and `u64::saturating_mul`, and the
first two of `i64`.
-/

namespace FerroDruid.Lib

def saturatingAdd (a b : UInt64) : UInt64 := .ofNat (min (a.toNat + b.toNat) (2 ^ 64 - 1))

def saturatingSub (a b : UInt64) : UInt64 := .ofNat (a.toNat - b.toNat)

def saturatingMul (a b : UInt64) : UInt64 := .ofNat (min (a.toNat * b.toNat) (2 ^ 64 - 1))

theorem toNat_saturatingAdd (a b : UInt64) : (saturatingAdd a b).toNat = min (a.toNat + b.toNat) (2 ^ 64 - 1) :=
  UInt64.toNat_ofNat_of_lt' (show _ < 2 ^ 64 by omega)

@[simp] theorem toNat_saturatingSub (a b : UInt64) : (saturatingSub a b).toNat = a.toNat - b.toNat :=
  UInt64.toNat_ofNat_of_lt' (show _ < 2 ^ 64 by have := a.toNat_lt; omega)

/-- A number as far as it fits. -/
def Clipped (x : UInt64) (n : ℕ) : Prop := x.toNat = min n (2 ^ 64 - 1)

theorem clipped_toNat (x : UInt64) : Clipped x x.toNat := by
  have := x.toNat_lt
  unfold Clipped
  omega

theorem Clipped.add {x y : UInt64} {m n : ℕ} (hx : Clipped x m) (hy : Clipped y n) : Clipped (saturatingAdd x y) (m + n) := by
  unfold Clipped at *
  rw [toNat_saturatingAdd]
  omega

/-- A sum that starts from a clipped number is clipped. -/
theorem Clipped.foldl {α : Type*} {f : UInt64 → α → UInt64} {w : α → ℕ} {items : List α}
    (h : ∀ item ∈ items, ∀ x m, Clipped x m → Clipped (f x item) (m + w item)) {x : UInt64} {m : ℕ} (hx : Clipped x m) :
    Clipped (items.foldl f x) (m + (items.map w).sum) := by
  induction items generalizing x m with
  | nil => exact hx
  | cons item items ih =>
    rw [List.forall_mem_cons] at h
    rw [List.foldl_cons, List.map_cons, List.sum_cons, ← Nat.add_assoc]
    exact ih h.2 (h.1 x m hx)

/-! ## Signed -/

def saturate (n : ℤ) : Int64 := .ofInt (max (-2 ^ 63) (min n (2 ^ 63 - 1)))

def saturatingAddI64 (a b : Int64) : Int64 := saturate (a.toInt + b.toInt)

def saturatingSubI64 (a b : Int64) : Int64 := saturate (a.toInt - b.toInt)

theorem toInt_saturate (n : ℤ) : (saturate n).toInt = max (-2 ^ 63) (min n (2 ^ 63 - 1)) :=
  Int64.toInt_ofInt_of_le (by omega) (by omega)

end FerroDruid.Lib
