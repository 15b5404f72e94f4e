import FerroDruid.Lib.BitPacking
import FerroDruid.Segment.Columns
/-!
# Packed longs of native segments

The `longEncoding: auto` parts of `ferrodruid-segment/src/druid_native.rs`: runs of
values of some width, in one stretch or in the blocks of a generic-indexed
container, that are offsets from a base or places in a table. The LZ4 decoder is a
parameter.
-/

namespace FerroDruid.Segment.Native

open Lib Lib.Cursor

/-- `DruidError::Segment`, or a slice out of its bounds. -/
inductive NativeError where
  | segment (text : String)
  | panic
  deriving DecidableEq

abbrev Reader := Cursor NativeError

/-! ## Cursor helpers -/

def truncated (what : String) (n len pos : ℕ) : NativeError :=
  .segment s!"druid-native: truncated reading {what}: need {n} bytes at offset {pos}, have {len}"

def readU8 (what : String) : Reader UInt8 := do
  let raw ← take 1 (truncated what 1)
  return raw.headD 0

def readU32Be (what : String) : Reader ℕ := do
  let raw ← take 4 (truncated what 4)
  return beNat raw

def readI64Be (what : String) : Reader Int64 := do
  let raw ← take 8 (truncated what 8)
  return (UInt64.ofNat (beNat raw)).toInt64

/-- What is left, without reading it. -/
def rest : Reader Bytes := fun data pos => .ok (data.drop pos, pos)

/-- Bounded to the next `n` bytes, and then past them. -/
def within {α : Type} (what : String) (n : ℕ) (r : Reader α) : Reader α := fun data pos =>
  if pos + n > data.length then .error (truncated what n data.length pos)
  else
    match r (data.take (pos + n)) pos with
    | .error e => .error e
    | .ok (a, _) => .ok (a, pos + n)

/-! ## Generic-indexed containers -/

def MAX_GI_ELEMENTS : ℕ := 16 * 1024 * 1024

/-- The elements that end at these offsets, each behind its marker. -/
def elementsOf (what : String) (values : Bytes) : ℕ → ℕ → List ℕ → Except NativeError (List (Option Bytes))
  | _, prev, [] =>
    if prev ≠ values.length then .error (.segment s!"druid-native: {what}: {values.length - prev} trailing bytes after last element")
    else .ok []
  | i, prev, stop :: ends =>
    if stop < prev ∨ stop > values.length then
      .error (.segment s!"druid-native: {what}: element {i} has invalid end offset {stop} (prev {prev}, value region {values.length})")
    else
      let elem := (values.drop prev).take (stop - prev)
      if elem.length < 4 then .error (.segment s!"druid-native: {what}: element {i} shorter than its 4-byte marker")
      else
        let marker := (UInt32.ofNat (beNat (elem.take 4))).toInt32.toInt
        if marker = 0 then do
          let elements ← elementsOf what values (i + 1) stop ends
          return some (elem.drop 4) :: elements
        else if marker = -1 then
          if elem.length ≠ 4 then .error (.segment s!"druid-native: {what}: null element {i} carries {elem.length - 4} payload bytes")
          else do
            let elements ← elementsOf what values (i + 1) stop ends
            return none :: elements
        else .error (.segment s!"druid-native: {what}: element {i} has unknown marker {marker}")

def genericBody (maxElements : ℕ) (what : String) : Reader (List (Option Bytes)) := do
  let num ← readU32Be what
  let cap := min maxElements MAX_GI_ELEMENTS
  refuse (num > cap) (.segment s!"druid-native: {what}: element count {num} exceeds cap {cap}")
  need (num * 4) (truncated what (num * 4))
  let ends ← collect (fun _ => readU32Be what) num 0
  let values ← rest
  ofExcept (elementsOf what values 0 0 ends)

def parseGenericIndexed (maxElements : ℕ) (what : String) : Reader (List (Option Bytes)) := do
  let version ← readU8 what
  refuse (version ≠ 1) (.segment s!"druid-native: {what}: unsupported generic-indexed version {version}")
  let _flags ← readU8 what
  let bodySize ← readU32Be what
  within what bodySize (genericBody maxElements what)

/-! ## Packed runs -/

def COMPRESSION_LZ4 : UInt8 := 0x01

def COMPRESSION_NONE_RAW : UInt8 := 0xFE

def COMPRESSION_UNCOMPRESSED : UInt8 := 0xFF

def LONG_ENCODING_FLAG_CLEAR_OFFSET : UInt8 := 0x7E

def LONG_ENCODING_FORMAT_DELTA : UInt8 := 0x00

def LONG_ENCODING_FORMAT_TABLE : UInt8 := 0x01

def LONG_ENCODING_HEADER_VERSION : UInt8 := 0x01

def MAX_LONG_TABLE_SIZE : ℕ := 256

def MAX_BLOCK_BYTES : ℕ := 64 * 1024 * 1024

def MAX_LZ4_RATIO : ℕ := 256

def PACKED_CLOSING_PAD : ℕ := 4

def SUPPORTED_PACKED_WIDTHS : List ℕ := [1, 2, 4, 8, 12, 16, 20, 24, 32, 40, 48, 56, 64]

def validatePackedWidth (bits : ℕ) (what : String) : Except NativeError Unit :=
  if bits ∈ SUPPORTED_PACKED_WIDTHS then .ok ()
  else .error (.segment s!"druid-native: {what}: packed bit width {bits} is not a supported width (supported: {SUPPORTED_PACKED_WIDTHS})")

def bitsForTableSize (tableSize : ℕ) : ℕ := (SUPPORTED_PACKED_WIDTHS.find? fun w => 64 ≤ w ∨ tableSize ≤ 2 ^ w).getD 64

/-- A product of 64 bits, rounded up to bytes, leaves room for the pad. -/
def packedRunLen (bits numValues : ℕ) (what : String) : Except NativeError ℕ :=
  if bits * numValues < 2 ^ 64 then .ok ((bits * numValues + 7) / 8 + PACKED_CLOSING_PAD)
  else .error (.segment s!"druid-native: {what}: packed byte count overflows ({bits} bits × {numValues} values)")

/-- The window of bytes around a value has 9 bytes at most, which a `u128` holds. -/
def readPackedBe (packed : Bytes) (index bits : ℕ) : Except NativeError UInt64 :=
  let startBit := index * bits
  let endBit := startBit + bits
  let first := startBit / 8
  let last := (endBit - 1) / 8
  if packed.length ≤ last then .error .panic
  else
    let acc := ((packed.drop first).take (last + 1 - first)).foldl (fun acc b => acc <<< 8 ||| b.toNat) 0
    let trailing := (last + 1) * 8 - endBit
    .ok (UInt64.ofNat ((acc >>> trailing) &&& (2 ^ bits - 1)))

def pushPackedValues (packed : Bytes) (count bits : ℕ) : Except NativeError (List UInt64) :=
  (List.range count).mapM fun i => readPackedBe packed i bits

/-- `lz4_flex::block::decompress_into` a buffer of some length: the bytes it writes.
A block expands 255 times at most. -/
structure Lz4 where
  decompressInto : Bytes → ℕ → Except String Bytes
  expands : ∀ input len out, decompressInto input len = .ok out → out.length ≤ 255 * input.length

/-- `decompress_raw` of the LZ4 codec. -/
def decompressRaw (lz4 : Lz4) (input : Bytes) (exactLen : ℕ) : Except String Bytes :=
  match lz4.decompressInto input exactLen with
  | .error e => .error s!"decompression error: raw LZ4 block: {e}"
  | .ok out =>
    if out.length ≠ exactLen then .error s!"decompression error: raw LZ4 block decoded to {out.length} bytes, expected {exactLen}"
    else .ok out

structure NumericPartHead where
  numValues : ℕ
  valuesPerBlock : ℕ
  compression : UInt8

section Stream

variable (lz4 : Lz4) (head : NumericPartHead) (bits : ℕ) (compression : UInt8) (what : String)

/-- The packed run of a block. -/
def unpackBlock (i : ℕ) (block : Bytes) (expected : ℕ) : Except NativeError Bytes :=
  if compression = COMPRESSION_LZ4 then
    if block.length * MAX_LZ4_RATIO < expected then
      .error (.segment (s!"druid-native: {what}: packed block {i} has {block.length} bytes and cannot expand to its " ++
        s!"declared {expected} B (per-block amplification bound)"))
    else
      match decompressRaw lz4 block expected with
      | .error e => .error (.segment s!"druid-native: {what}: packed block {i} LZ4 decode failed: {e}")
      | .ok packed => .ok packed
  else if block.length < expected then
    .error (.segment s!"druid-native: {what}: uncompressed packed block {i} has {block.length} bytes, need {expected}")
  else .ok (block.take expected)

/-- The loop over the blocks, with the values that are still owed. -/
def decodeBlocks : ℕ → ℕ → List (Option Bytes) → Except NativeError (List UInt64)
  | _, remaining, [] =>
    if remaining ≠ 0 then
      .error (.segment s!"druid-native: {what}: packed blocks cover {head.numValues - remaining} of {head.numValues} declared values")
    else .ok []
  | i, _, none :: _ => .error (.segment s!"druid-native: {what}: packed block {i} is null")
  | i, remaining, some block :: blocks =>
    if remaining = 0 then .error (.segment s!"druid-native: {what}: more packed blocks than declared values")
    else do
      let blockValues := min remaining head.valuesPerBlock
      let expected ← packedRunLen bits blockValues what
      let packed ← unpackBlock lz4 compression what i block expected
      let values ← pushPackedValues packed blockValues bits
      let more ← decodeBlocks (i + 1) (remaining - blockValues) blocks
      return values ++ more

/-- The packed run of the last block, where it is not full. -/
def tailRunLen : Except NativeError ℕ :=
  let tailValues := head.numValues % head.valuesPerBlock
  if tailValues > 0 then packedRunLen bits tailValues what else .ok 0

/-- The packed bytes of all blocks, against what the blocks at hand can expand to. -/
def amplificationBound (fullBlockLen : ℕ) (blocks : List (Option Bytes)) : Except NativeError Unit := do
  let maxRatio := if compression = COMPRESSION_LZ4 then MAX_LZ4_RATIO else 1
  let fullBlocks := head.numValues / head.valuesPerBlock
  let tail ← tailRunLen head bits what
  let totalPacked := fullBlockLen * fullBlocks + tail
  let blockInputBytes := (blocks.reduceOption.map List.length).sum
  if totalPacked > blockInputBytes * maxRatio then
    .error (.segment (s!"druid-native: {what}: declared packed output {totalPacked} B exceeds {maxRatio}× the " ++
      s!"{blockInputBytes} B of block input (amplification bound)"))
  else .ok ()

def decodePackedLongStream : Reader (List UInt64) :=
  if compression = COMPRESSION_NONE_RAW then do
    let total ← ofExcept (packedRunLen bits head.numValues what)
    let packed ← take total (truncated what total)
    ofExcept (pushPackedValues packed head.numValues bits)
  else if compression ≠ COMPRESSION_LZ4 ∧ compression ≠ COMPRESSION_UNCOMPRESSED then
    fail (.segment (s!"druid-native: {what}: unsupported block compression id {hexByte compression} under " ++
      "`longEncoding: auto` (supported: 0x01 lz4, 0xff uncompressed, 0xfe none)"))
  else if head.valuesPerBlock = 0 then fail (.segment s!"druid-native: {what}: implausible packed block size (0 values per block)")
  else do
    let fullBlockLen ← ofExcept (packedRunLen bits head.valuesPerBlock what)
    refuse (fullBlockLen > MAX_BLOCK_BYTES)
      (.segment s!"druid-native: {what}: implausible packed block size ({head.valuesPerBlock} values × {bits} bits exceeds {MAX_BLOCK_BYTES} B)")
    let expectedBlocks := (head.numValues + head.valuesPerBlock - 1) / head.valuesPerBlock
    let blocks ← parseGenericIndexed expectedBlocks what
    refuse (blocks.length ≠ expectedBlocks)
      (.segment (s!"druid-native: {what}: {blocks.length} packed blocks cannot cover {head.numValues} declared " ++
        s!"values ({head.valuesPerBlock} per block requires {expectedBlocks})"))
    ofExcept (amplificationBound head bits compression what fullBlockLen blocks)
    ofExcept (decodeBlocks lz4 head bits compression what 0 head.numValues blocks)

end Stream

/-! ## Encodings -/

/-- The long of each id. -/
def lookupIds (what : String) (table : List Int64) : ℕ → List UInt64 → Except NativeError (List Int64)
  | _, [] => .ok []
  | row, id :: ids =>
    match table[id.toNat]? with
    | none => .error (.segment s!"druid-native: {what}: row {row} table index {id} out of range (table has {table.length} entries)")
    | some value => do
      let values ← lookupIds what table (row + 1) ids
      return value :: values

def decodeAutoLongPart (lz4 : Lz4) (head : NumericPartHead) (what : String) : Reader (List Int64) := do
  let compression := head.compression + LONG_ENCODING_FLAG_CLEAR_OFFSET
  let format ← readU8 "long encoding format"
  let headerVersion ← readU8 "long encoding header version"
  refuse (headerVersion ≠ LONG_ENCODING_HEADER_VERSION)
    (.segment s!"druid-native: {what}: unsupported long-encoding header version {headerVersion}")
  if format = LONG_ENCODING_FORMAT_DELTA then
    let base ← readI64Be "delta encoding base"
    let bits ← readU32Be "delta encoding bit width"
    ofExcept (validatePackedWidth bits what)
    let offsets ← decodePackedLongStream lz4 head bits compression what
    return offsets.map fun off => base + off.toInt64
  else if format = LONG_ENCODING_FORMAT_TABLE then
    let tableSize ← readU32Be "long table size"
    refuse (tableSize = 0 ∨ tableSize > MAX_LONG_TABLE_SIZE)
      (.segment s!"druid-native: {what}: long table size {tableSize} out of range 1..={MAX_LONG_TABLE_SIZE}")
    let table ← collect (fun _ => readI64Be "long table entry") tableSize 0
    let ids ← decodePackedLongStream lz4 head (bitsForTableSize tableSize) compression what
    ofExcept (lookupIds what table 0 ids)
  else fail (.segment s!"druid-native: {what}: unknown long encoding format {hexByte format} (supported: 0x00 delta, 0x01 table)")

end FerroDruid.Segment.Native
