import FerroDruid.Aggregator.CardinalityKey
import FerroDruid.Lib.Base64
import FerroDruid.Lib.FloatRound
/-!
# Bloom filters

`BloomFilter`, `BloomFilterAggregator` and `merge_bloom_json` of
`ferrodruid-aggregator/src/bloom.rs`. What indexes out of range, or divides by zero, has
no result. The logarithm, the hasher, the base64 engine and the text of a JSON value
are parameters.
-/

namespace FerroDruid.Aggregator

open Lib

/-- What the standard library and the crates give. -/
structure BloomCrates where
  ln : F64 → F64
  hash : UInt64 → Utf8 → UInt64
  encode : Bytes → Utf8
  decode : Utf8 → Except String Bytes
  text : Json → Utf8
  /-- The logarithm of one hundredth is between -5 and 0. -/
  ln_hundredth : ∃ m : Fin (2047 * 2 ^ 52), ln (.ofDecimal false 1 (-2)) = .finite true m ∧ F64.units m ≤ F64.unitsOne * 5
  decode_encode : ∀ bs, decode (encode bs) = .ok bs

def BLOOM_FILTER_TAG : Utf8 := ⟨ascii "ferrodruid-bloom-v1", by decide +kernel⟩

def MAGIC : Bytes := ascii "FDBF"

def VERSION : ℕ := 1

def MIN_ENTRIES : ℕ := 8

def MAX_ENTRIES : ℕ := 2 ^ 26

def FPP : F64 := .ofDecimal false 1 (-2)

def LN_2 : F64 := .ofBits 0x3FE62E42FEFA39EF

def MIN_K : ℕ := 2

def MAX_K : ℕ := 12

def SIPHASH_KEY_A : UInt64 := 0x0123456789abcdef

def SIPHASH_KEY_B : UInt64 := 0xfedcba9876543210

structure BloomFilter where
  m : ℕ
  k : ℕ
  bits : Bytes
  deriving DecidableEq

variable (crates : BloomCrates)

/-! ## Filters -/

/-- A second hash that is zero is replaced. -/
def hashPair (value : Utf8) : UInt64 × UInt64 :=
  let h1 := crates.hash SIPHASH_KEY_A value
  let h2 := crates.hash SIPHASH_KEY_B value
  (h1, if h2 = 0 then 0x9E3779B97F4A7C15 else h2)

namespace BloomFilter

/-- The bits are rounded up to whole bytes. -/
def forEntries (numEntries : UInt64) : BloomFilter :=
  let n : ℕ := max MIN_ENTRIES (min numEntries.toNat MAX_ENTRIES)
  let nF := F64.ofInt n
  let mBitsRaw := (nF.mul (crates.ln FPP)).neg.div (LN_2.mul LN_2)
  let mBits : ℕ := mBitsRaw.ceil.toUnsigned 64
  let mBits : ℕ := if mBits < 64 then 64 else mBits
  let mBits : ℕ := (mBits + 7) % 2 ^ 64 / 8 * 8
  let kRaw := (((F64.ofInt mBits).div nF).mul LN_2).round
  let k := min ((kRaw.max (.ofInt MIN_K)).toUnsigned 32) MAX_K
  ⟨mBits, k, List.replicate (mBits / 8) 0⟩

/-- The bit of the `i`-th hash. -/
def position (m : ℕ) (hashes : UInt64 × UInt64) (i : ℕ) : Option ℕ :=
  if m = 0 then none else some ((hashes.1 + UInt64.ofNat i * hashes.2).toNat % m)

def mask (bit : ℕ) : UInt8 := 1 <<< UInt8.ofNat (bit % 8)

def setBit (bits : Bytes) (bit : ℕ) : Option Bytes := do
  let byte ← bits[bit / 8]?
  return bits.set (bit / 8) (byte ||| mask bit)

def add (self : BloomFilter) (value : Utf8) : Option BloomFilter := do
  let hashes := hashPair crates value
  let bits ← (List.range self.k).foldlM (fun bits i => do
    let bit ← position self.m hashes i
    setBit bits bit) self.bits
  return { self with bits := bits }

/-- The loop of `test` over what is left of the hashes. -/
def testLoop (self : BloomFilter) (hashes : UInt64 × UInt64) : List ℕ → Option Bool
  | [] => some true
  | i :: rest => do
    let bit ← position self.m hashes i
    let byte ← self.bits[bit / 8]?
    if byte &&& mask bit = 0 then return false else testLoop self hashes rest

def test (self : BloomFilter) (value : Utf8) : Option Bool :=
  if self.bits = [] ∨ self.m = 0 then some false else testLoop self (hashPair crates value) (List.range self.k)

/-- Filters of another size are passed over. -/
def mergeIn (self other : BloomFilter) : BloomFilter :=
  if self.m ≠ other.m ∨ self.k ≠ other.k ∨ self.bits.length ≠ other.bits.length then self
  else { self with bits := List.zipWith (· ||| ·) self.bits other.bits }

/-! ## Bytes -/

def toBytes (self : BloomFilter) : Bytes := MAGIC ++ leBytes 4 VERSION ++ leBytes 4 self.k ++ leBytes 8 self.m ++ self.bits

def fromBytes (bytes : Bytes) : Except String BloomFilter :=
  if bytes.length < 20 then .error s!"bloom filter blob too short: {bytes.length} bytes"
  else if bytes.take 4 ≠ MAGIC then .error s!"bloom filter magic mismatch: {bytes.take 4}"
  else
    let version := leAt bytes 4 4
    if version ≠ VERSION then .error s!"unsupported bloom filter version: {version}"
    else
      let k := leAt bytes 4 8
      if k < MIN_K ∨ MAX_K < k then .error s!"bloom filter k out of range: {k} (allowed {MIN_K}..={MAX_K})"
      else
        let m := leAt bytes 8 12
        if m = 0 ∨ m % 8 ≠ 0 then .error s!"bloom filter m must be a non-zero multiple of 8: {m}"
        else
          let expectedBytes := m / 8
          if bytes.length ≠ 20 + expectedBytes then
            .error s!"bloom filter length mismatch: header says m={m} ({expectedBytes} bytes), got {bytes.length - 20}"
          else .ok ⟨m, k, bytes.drop 20⟩

end BloomFilter

def encodeBloomFilter (filter : BloomFilter) : Utf8 := crates.encode filter.toBytes

def decodeBloomFilter (b64 : Utf8) : Except String BloomFilter :=
  match crates.decode b64 with
  | .error e => .error s!"base64 decode failed: {e}"
  | .ok bytes => BloomFilter.fromBytes bytes

/-! ## The aggregator -/

def sketchName : Utf8 := ⟨ascii "@sketch", by decide +kernel⟩

def bytesName : Utf8 := ⟨ascii "bytes", by decide +kernel⟩

/-- The JSON of an encoded filter. -/
def bloomEnvelope (filter : BloomFilter) : Json := .object
    [(sketchName, .string BLOOM_FILTER_TAG), (bytesName, .string (encodeBloomFilter crates filter))]

def bloomInputStr : Json → Utf8
  | .string s => s
  | .bool b => boolText b
  | .null => ⟨[], Eq.refl true⟩
  | other => crates.text other

/-- The text in an envelope of this kind. -/
def extractBloomB64 : Json → Option Utf8
  | .object fields => do
    let tag ← (Json.get fields sketchName).bind Json.asStr
    if tag ≠ BLOOM_FILTER_TAG then none else (Json.get fields bytesName).bind Json.asStr
  | _ => none

structure BloomFilterAggregator where
  filter : BloomFilter

namespace BloomFilterAggregator

def new (numEntries : UInt64) : BloomFilterAggregator := ⟨.forEntries crates numEntries⟩

def aggregate (self : BloomFilterAggregator) : Option Json → Option BloomFilterAggregator
  | none => some self
  | some .null => some self
  | some v => do
    let filter ← self.filter.add crates (bloomInputStr crates v)
    return ⟨filter⟩

def get (self : BloomFilterAggregator) : Json := bloomEnvelope crates self.filter

/-- The other one is read through its result. -/
def merge (self : BloomFilterAggregator) (other : Json) : BloomFilterAggregator :=
  match extractBloomB64 other with
  | none => self
  | some b64 =>
    match decodeBloomFilter crates b64 with
    | .error _ => self
    | .ok filter => ⟨self.filter.mergeIn filter⟩

end BloomFilterAggregator

def mergeBloomJson (dst src : Json) : Json :=
  match extractBloomB64 dst, extractBloomB64 src with
  | some d, some s =>
    match decodeBloomFilter crates d, decodeBloomFilter crates s with
    | .ok df, .ok sf => bloomEnvelope crates (df.mergeIn sf)
    | _, _ => dst
  | some _, none => dst
  | none, some _ => src
  | _, _ => dst

end FerroDruid.Aggregator
