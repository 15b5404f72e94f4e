import FerroDruid.Lib.Bytes
import Mathlib.Data.Fintype.Card
import Mathlib.Data.Fintype.EquivFin
import Mathlib.Data.Fintype.Order
/-!
# HyperUnique sketches of Druid

The decoders and the merge of `ferrodruid-sketches/src/druid_hll.rs`. A sketch has
2048 registers of four bits, of which a page byte holds two, and the overflow pair of
its header.
-/

namespace FerroDruid.Sketches.HyperUnique

open Lib

/-- `SketchError::Serialization`. -/
inductive SketchError where
  | serialization (text : String)
  deriving DecidableEq

def NUM_REGISTERS : ℕ := 2048

def REGISTER_PAGE_BYTES : ℕ := 1024

def HEADER_BYTES : ℕ := 7

def BLOB_VERSION : UInt8 := 0x01

def WIRE_VERSION : UInt8 := 1

def WIRE_LEN : ℕ := 4 + NUM_REGISTERS

def MAX_NIBBLE : UInt8 := 0x0F

abbrev Nibble := Fin 16

instance neZero_sixteen : NeZero 16 := ⟨by decide⟩

abbrev Registers := Fin NUM_REGISTERS → Nibble

/-- Past the ceiling of a register, and of one. -/
@[ext] structure Overflow where
  value : UInt8
  register : Fin NUM_REGISTERS
  above : MAX_NIBBLE < value
  deriving DecidableEq

@[ext] structure DruidHyperUnique where
  registers : Registers
  overflow : Option Overflow
  deriving DecidableEq

/-! ## Registers -/

theorem toNat_low (b : UInt8) : (b &&& MAX_NIBBLE).toNat = b.toNat % 16 :=
  UInt8.forall_of_fin (P := fun b => (b &&& MAX_NIBBLE).toNat = b.toNat % 16) (by decide +kernel) b

theorem toNat_high (b : UInt8) : (b >>> 4).toNat = b.toNat / 16 :=
  UInt8.forall_of_fin (P := fun b => (b >>> 4).toNat = b.toNat / 16) (by decide +kernel) b

def registerByte (v : Nibble) : UInt8 := UInt8.ofNat v

def low (b : UInt8) : Nibble := ⟨(b &&& MAX_NIBBLE).toNat, by rw [toNat_low]; omega⟩

def high (b : UInt8) : Nibble := ⟨(b >>> 4).toNat, by rw [toNat_high]; have := b.toNat_lt; omega⟩

def evenRegister (bytePos : Fin REGISTER_PAGE_BYTES) : Fin NUM_REGISTERS :=
    ⟨2 * bytePos, by have := bytePos.isLt; simp [NUM_REGISTERS, REGISTER_PAGE_BYTES] at *; omega⟩

def oddRegister (bytePos : Fin REGISTER_PAGE_BYTES) : Fin NUM_REGISTERS :=
    ⟨2 * bytePos + 1, by have := bytePos.isLt; simp [NUM_REGISTERS, REGISTER_PAGE_BYTES] at *; omega⟩

/-- Both registers of a page byte. -/
def storeByte (registers : Registers) (bytePos : Fin REGISTER_PAGE_BYTES) (b : UInt8) : Registers :=
  Function.update (Function.update registers (evenRegister bytePos) (low b)) (oddRegister bytePos) (high b)

def storeBytes (registers : Registers) (entries : List (Fin REGISTER_PAGE_BYTES × UInt8)) : Registers :=
  entries.foldl (fun registers entry => storeByte registers entry.1 entry.2) registers

def nonZero (registers : Registers) : ℕ := (Finset.univ.filter fun r => registers r ≠ 0).card

def noRegisters : Registers := fun _ => 0

namespace DruidHyperUnique

def numNonZero (self : DruidHyperUnique) : ℕ := nonZero self.registers

end DruidHyperUnique

/-! ## Blobs -/

def decodeOverflow (value : UInt8) (register : ℕ) (fail : String → SketchError) : Except SketchError (Option Overflow) :=
  if value = 0 then
    if register ≠ 0 then
      .error (fail s!"overflow value 0 with a dangling overflow register {register} (every observed no-overflow header carries 00 0000)")
    else .ok none
  else if h : value ≤ MAX_NIBBLE then
    .error (fail (s!"overflow value {value} fits a 4-bit register and can therefore never legitimately overflow " ++
      "(observed overflows start one past the ceiling, at 16)"))
  else if hr : register ≥ NUM_REGISTERS then .error (fail s!"overflow register {register} is past the {NUM_REGISTERS}-register page")
  else .ok (some ⟨value, ⟨register, Nat.lt_of_not_le hr⟩, UInt8.not_le.1 h⟩)

def blobError (what : String) : SketchError := .serialization s!"druid hyperUnique blob: {what}"

/-- The page, a byte after the other. -/
def densePage (body : Bytes) : Registers :=
  storeBytes noRegisters ((List.finRange REGISTER_PAGE_BYTES).map fun bytePos => (bytePos, body.getD bytePos 0))

/-- The loop over the entries, with the last position and whether padding began. -/
def sparseEntries (prev : Option ℕ) (padding : Bool) (registers : Registers) : Bytes → Except SketchError Registers
  | hi :: lo :: valueByte :: body =>
    if hi = 0 ∧ lo = 0 ∧ valueByte = 0 then sparseEntries prev true registers body
    else if padding then .error (blobError "sparse entry after zero padding began (padding is a pure suffix in every observed blob)")
    else
      let bufPos := leNat [lo, hi]
      if bufPos < HEADER_BYTES then
        .error (blobError s!"sparse entry position {bufPos} lies inside the {HEADER_BYTES}-byte header (positions are buffer-relative: 7..=1030)")
      else if h : bufPos - HEADER_BYTES ≥ REGISTER_PAGE_BYTES then
        .error (blobError s!"sparse entry position {bufPos} is past the end of the register page (buffer-relative maximum 1030)")
      else if prev.any (bufPos ≤ ·) then
        .error (blobError s!"sparse entry positions must be strictly ascending (position {bufPos} follows {prev.getD 0})")
      else if valueByte = 0 then
        .error (blobError (s!"sparse entry at position {bufPos} carries a zero value byte (never observed — entries " ++
          "exist to record non-zero page bytes)"))
      else sparseEntries (some bufPos) false (storeByte registers ⟨bufPos - HEADER_BYTES, Nat.lt_of_not_le h⟩ valueByte) body
  | _ => .ok registers

/-- The two shapes are told apart by their lengths. -/
def decodeBody (declaredNonZero : ℕ) (body : Bytes) : Except SketchError Registers :=
  if body.length = REGISTER_PAGE_BYTES then .ok (densePage body)
  else if body.length % 3 = 0 then
    if body.length ≠ declaredNonZero * 3 then
      .error (blobError (s!"sparse body of {body.length} bytes does not match the declared non-zero-register count " ++
        s!"{declaredNonZero} × 3 (every observed blob sizes the body by the declared count, zero-padding past the last " ++
        "entry)"))
    else sparseEntries none false noRegisters body
  else .error (blobError (s!"body of {body.length} bytes is neither the {REGISTER_PAGE_BYTES}-byte dense register " ++
    "page nor a whole number of 3-byte sparse entries"))

def fromDruidBlob (data : Bytes) : Except SketchError DruidHyperUnique :=
  match data with
  | version :: registerOffset :: count1 :: count0 :: overflowValue :: register1 :: register0 :: body =>
    if version ≠ BLOB_VERSION then .error (blobError s!"unsupported version byte {hexByte version} (only {hexByte BLOB_VERSION} observed)")
    else if registerOffset ≠ 0 then
      .error (blobError (s!"non-zero register-offset byte {registerOffset} is not supported: only offset 0 was ever " ++
        "observed in the captured oracle segments, so the offset semantics (and the estimator behaviour in that " ++
        "regime) are unverified"))
    else do
      let declaredNonZero := leNat [count0, count1]
      let overflow ← decodeOverflow overflowValue (leNat [register0, register1]) blobError
      let registers ← decodeBody declaredNonZero body
      let actualNonZero := nonZero registers
      if actualNonZero ≠ declaredNonZero then
        .error (blobError (s!"declared non-zero-register count {declaredNonZero} disagrees with the {actualNonZero} " ++
          "non-zero registers decoded from the body (consistent in every observed blob — a mismatch means a corrupt " ++
          "or unsupported image)"))
      else .ok ⟨registers, overflow⟩
  | _ => .error (blobError s!"{data.length} bytes is shorter than the {HEADER_BYTES}-byte header")

/-! ## Merging -/

/-- The first of two overflow pairs with the same value stays. -/
def mergeOverflow : Option Overflow → Option Overflow → Option Overflow
  | some a, some b => some (if b.value > a.value then b else a)
  | a, b => a.or b

namespace DruidHyperUnique

/-- `merge_in_place`, and `merged` of a clone. -/
def merged (self other : DruidHyperUnique) : DruidHyperUnique where
  registers r := if other.registers r > self.registers r then other.registers r else self.registers r
  overflow := mergeOverflow self.overflow other.overflow

/-! ## The wire -/

def serialize (self : DruidHyperUnique) : Bytes :=
  let (value, register) := match self.overflow with
    | some o => (o.value, o.register.val)
    | none => (0, 0)
  WIRE_VERSION :: value :: (leBytes 2 register ++ List.ofFn fun r => registerByte (self.registers r))

end DruidHyperUnique

def wireError (what : String) : SketchError := .serialization s!"druid hyperUnique wire: {what}"

def wireRegister (i : ℕ) (v : UInt8) : Except SketchError Nibble :=
  if h : v > MAX_NIBBLE then .error (wireError s!"register {i} value {v} exceeds the 4-bit ceiling (the only accepted register offset is 0)")
  else .ok ⟨v.toNat, by have := UInt8.le_iff_toNat_le.1 (UInt8.not_lt.1 h); exact Nat.lt_succ_of_le this⟩

/-- The registers from the `i`-th on. -/
def wireRegisters : ℕ → Bytes → Except SketchError (List Nibble)
  | _, [] => .ok []
  | i, v :: body => do
    let register ← wireRegister i v
    let registers ← wireRegisters (i + 1) body
    return register :: registers

def deserialize (data : Bytes) : Except SketchError DruidHyperUnique :=
  match data with
  | version :: overflowValue :: register0 :: register1 :: body =>
    if data.length ≠ WIRE_LEN then .error (wireError s!"expected exactly {WIRE_LEN} bytes, got {data.length}")
    else if version ≠ WIRE_VERSION then .error (wireError s!"unsupported wire version {version}")
    else do
      let overflow ← decodeOverflow overflowValue (leNat [register0, register1]) wireError
      let registers ← wireRegisters 0 body
      return ⟨fun r => registers.getD r 0, overflow⟩
  | _ => .error (wireError s!"expected exactly {WIRE_LEN} bytes, got {data.length}")

end FerroDruid.Sketches.HyperUnique
