import FerroDruid.Lib.Float64
import FerroDruid.Lib.Utf8
/-!
# JSON values

As `serde_json` holds them: a number is an integer of 64 bits, signed or not, or
a finite float.
-/

namespace FerroDruid.Lib

inductive JsonNumber where
  | int (n : ℤ) (range : -2 ^ 63 ≤ n ∧ n < 2 ^ 64)
  | float (x : F64) (finite : x.isFinite = true)
  deriving DecidableEq

inductive Json where
  | null
  | bool (b : Bool)
  | number (n : JsonNumber)
  | string (s : Utf8)
  | array (items : List Json)
  | object (fields : List (Utf8 × Json))

namespace Json

/-! ## Equality -/

mutual

def decEq : (a b : Json) → Decidable (a = b)
  | null, null => isTrue rfl
  | bool a, bool b => decidable_of_iff (a = b) (by simp)
  | number a, number b => decidable_of_iff (a = b) (by simp)
  | string a, string b => decidable_of_iff (a = b) (by simp)
  | array a, array b =>
    have := decEqItems a b
    decidable_of_iff (a = b) (by simp)
  | object a, object b =>
    have := decEqFields a b
    decidable_of_iff (a = b) (by simp)
  | null, bool _ | null, number _ | null, string _ | null, array _ | null, object _
  | bool _, null | bool _, number _ | bool _, string _ | bool _, array _ | bool _, object _
  | number _, null | number _, bool _ | number _, string _ | number _, array _ | number _, object _
  | string _, null | string _, bool _ | string _, number _ | string _, array _ | string _, object _
  | array _, null | array _, bool _ | array _, number _ | array _, string _ | array _, object _
  | object _, null | object _, bool _ | object _, number _ | object _, string _ | object _, array _ => isFalse nofun

def decEqItems : (a b : List Json) → Decidable (a = b)
  | [], [] => isTrue rfl
  | x :: xs, y :: ys =>
    have := decEq x y
    have := decEqItems xs ys
    decidable_of_iff (x = y ∧ xs = ys) (by simp)
  | [], _ :: _ | _ :: _, [] => isFalse nofun

def decEqFields : (a b : List (Utf8 × Json)) → Decidable (a = b)
  | [], [] => isTrue rfl
  | (k, x) :: xs, (l, y) :: ys =>
    have := decEq x y
    have := decEqFields xs ys
    decidable_of_iff (k = l ∧ x = y ∧ xs = ys) (by simp [and_assoc])
  | [], _ :: _ | _ :: _, [] => isFalse nofun

end

instance : DecidableEq Json := decEq

/-! ## Reading -/

def ofI64 (n : Int64) : Json :=
  .number (.int n.toInt ⟨n.le_toInt, n.toInt_lt.trans (by decide)⟩)

def ofU64 (n : UInt64) : Json :=
  .number (.int n.toNat ⟨(Int.neg_nonpos_of_nonneg (by decide)).trans (Int.natCast_nonneg _), Int.ofNat_lt.2 n.toNat_lt⟩)

/-- Null when the number is not finite. -/
def ofF64 (x : F64) : Json := if h : x.isFinite = true then .number (.float x h) else .null

def asI64 : Json → Option Int64
  | number (.int n _) => if n < 2 ^ 63 then some (Int64.ofInt n) else none
  | _ => none

def asU64 : Json → Option ℕ
  | number (.int n _) => if 0 ≤ n then some n.toNat else none
  | _ => none

def asF64 : Json → Option F64
  | number (.int n _) => some (.ofInt n)
  | number (.float x _) => some x
  | _ => none

def asStr : Json → Option Utf8
  | string s => some s
  | _ => none

def asBool : Json → Option Bool
  | bool b => some b
  | _ => none

def asArray : Json → Option (List Json)
  | array items => some items
  | _ => none

/-- The field of a name in an object. -/
def get (fields : List (Utf8 × Json)) (name : Utf8) : Option Json := (fields.find? (·.1 = name)).map (·.2)

def isI64 (j : Json) : Bool := j.asI64.isSome

def isU64 (j : Json) : Bool := j.asU64.isSome

variable (n : Int64)

@[simp] theorem asI64_ofI64 : asI64 (ofI64 n) = some n := by
  rw [ofI64, asI64, if_pos n.toInt_lt, Int64.ofInt_toInt]

theorem asU64_lt {j : Json} {n : ℕ} (h : j.asU64 = some n) : n < 2 ^ 64 := by
  unfold asU64 at h
  split at h
  · rename_i m hm
    split_ifs at h
    rw [← Option.some.inj h]
    omega
  · cases h

@[simp] theorem asU64_ofU64 (n : UInt64) : asU64 (ofU64 n) = some n.toNat := by
  simp only [ofU64, asU64, Int.natCast_nonneg, if_true, Int.toNat_natCast]

@[simp] theorem asF64_ofI64 : asF64 (ofI64 n) = some (.ofInt n.toInt) := by
  simp only [ofI64, asF64]

@[simp] theorem isI64_ofI64 : isI64 (ofI64 n) = true := by
  rw [isI64, asI64_ofI64]
  rfl

theorem ofI64_inj {a b : Int64} : ofI64 a = ofI64 b ↔ a = b := by
  constructor
  · intro h
    have := congrArg asI64 h
    simpa using this
  · exact congrArg ofI64

end Json

end FerroDruid.Lib
