import FerroDruid.Lib.Utf8
/-!
# Front-coded dictionaries

`FrontCodedDictionary` of `ferrodruid-dict/src/lib.rs`: the two writers, the
reader of both versions and the random access into version 2. Version 1 codes
an entry against the one before it, version 2 against the first of its bucket;
the rest is shared.

Positions and lengths are those of a 64-bit machine, where no sum of them
overflows. An error keeps what the source puts into its message.
-/

namespace FerroDruid.Dict

open Lib

inductive DictError where
  | bucketSizeZero
  | bucketSizeNotPowerOfTwo (bucketSize : ℕ)
  | bucketSizeInvalid
  | tooShort
  | version (found : ℕ)
  | notVersion2 (found : ℕ)
  | vintEnded
  | vintTooLong
  | tooManyValues (numValues maxEntries length : ℕ)
  | offsetTableTruncated
  | firstOffset (first : ℕ)
  | offsetsNotIncreasing (offset previous : ℕ)
  | offsetOutside (last bucketDataLen : ℕ)
  | bucketOverflows
  | entryOverflows
  | prefixTooLong (prefixLen length : ℕ)
  | prefixInsideCharacter (prefixLen : ℕ)
  | invalidUtf8
  | invalidUtf8Suffix
  | bucketEnd (bucket pos expected : ℕ)
  deriving DecidableEq, Repr

abbrev Result := Except DictError

/-! ## Variable-length integers -/

/-- A `u32` has at most four bytes with the continuation flag. -/
def writeVintLoop : ℕ → ℕ → Bytes
  | 0, val => [UInt8.ofNat val]
  | fuel + 1, val =>
    if 0x80 ≤ val then (UInt8.ofNat val ||| 0x80) :: writeVintLoop fuel (val >>> 7) else [UInt8.ofNat val]

def writeVint (val : ℕ) : Bytes := writeVintLoop 4 (val % 2 ^ 32)

/-- The value and the position after it. The fifth byte is the last one. -/
def readVintLoop (data : Bytes) : ℕ → (result shift pos : ℕ) → Result (ℕ × ℕ)
  | 0, _, _, _ => .error .vintTooLong
  | fuel + 1, result, shift, pos =>
    match data[pos]? with
    | none => .error .vintEnded
    | some byte =>
      let result := result ||| ((byte &&& 0x7F).toNat <<< shift) % 2 ^ 32
      if byte &&& 0x80 = 0 then .ok (result, pos + 1) else readVintLoop data fuel result (shift + 7) (pos + 1)

def readVint (data : Bytes) (pos : ℕ) : Result (ℕ × ℕ) := readVintLoop data 5 0 0 pos

/-! ## Writers -/

/-- The two on-disk versions. -/
inductive Version where
  | v1
  | v2
  deriving DecidableEq, Repr

/-- What the next entry of a bucket is coded against. -/
def Version.reference : Version → Utf8 → Utf8 → Utf8
  | .v1, _, entry => entry
  | .v2, base, _ => base

def Version.marker : Version → ℕ
  | .v1 => 1
  | .v2 => 2

def commonPrefixLen (a b : Bytes) : ℕ := ((a.zip b).takeWhile fun (x, y) => x == y).length

def writeEntry (ref cur : Utf8) : Bytes :=
  let prefixLen := commonPrefixLen ref.bytes cur.bytes
  let suffix := cur.bytes.drop prefixLen
  writeVint prefixLen ++ writeVint suffix.length ++ suffix

def writeEntries (v : Version) (ref : Utf8) : List Utf8 → Bytes
  | [] => []
  | cur :: rest => writeEntry ref cur ++ writeEntries v (v.reference ref cur) rest

/-- The first entry in full, the others against their reference. -/
def writeBucket (v : Version) : List Utf8 → Bytes
  | [] => []
  | first :: rest => writeVint first.bytes.length ++ first.bytes ++ writeEntries v first rest

/-- `usize::div_ceil`. -/
def divCeil (n d : ℕ) : ℕ := (n + d - 1) / d

/-- The entries, `bucketSize` to a bucket. -/
def buckets (bucketSize : ℕ) (values : List Utf8) : List (List Utf8) :=
  (List.range (divCeil values.length bucketSize)).map fun idx => (values.drop (idx * bucketSize)).take bucketSize

/-- Where each bucket starts, from the start of the bucket data. -/
def offsetsFrom (start : ℕ) : List Bytes → List ℕ
  | [] => []
  | b :: bs => start :: offsetsFrom (start + b.length) bs

def u32le (n : ℕ) : Bytes := leBytes 4 n

def serializeAs (v : Version) (bucketSize : ℕ) (values : List Utf8) : Bytes :=
  let data := (buckets bucketSize values).map (writeBucket v)
  u32le v.marker ++ u32le bucketSize ++ u32le values.length ++ data.flatten ++ (offsetsFrom 0 data).flatMap u32le

def serialize (bucketSize : ℕ) (values : List Utf8) : Result Bytes :=
  if bucketSize = 0 then .error .bucketSizeZero else .ok (serializeAs .v1 bucketSize values)

def isPowerOfTwo (n : ℕ) : Bool := n ≠ 0 && 2 ^ n.log2 = n

def serializeV2 (bucketSize : ℕ) (values : List Utf8) : Result Bytes :=
  if bucketSize = 0 then .error .bucketSizeZero
  else if !isPowerOfTwo bucketSize then .error (.bucketSizeNotPowerOfTwo bucketSize)
  else .ok (serializeAs .v2 bucketSize values)

def Version.serialize : Version → ℕ → List Utf8 → Result Bytes
  | .v1 => Dict.serialize
  | .v2 => serializeV2

/-! ## The reader -/

/-- The table starts at zero, increases and stays inside the data. -/
def validateBucketOffsets (offsets : List ℕ) (bucketDataLen : ℕ) : Result Unit :=
  match offsets with
  | [] => .ok ()
  | first :: _ =>
    if first ≠ 0 then .error (.firstOffset first)
    else
      match (offsets.zip offsets.tail).find? fun (a, b) => b ≤ a with
      | some (a, b) => .error (.offsetsNotIncreasing b a)
      | none =>
        if bucketDataLen ≤ offsets.getLastD 0 then .error (.offsetOutside (offsets.getLastD 0) bucketDataLen) else .ok ()

/-- The bytes `[pos, pos + len)`. -/
def slice (data : Bytes) (pos len : ℕ) : Bytes := (data.drop pos).take len

/-- A string stored in full, and the position after it. -/
def readFirst (data : Bytes) (offsetsStart pos : ℕ) : Result (Utf8 × ℕ) := do
  let (len, pos) ← readVint data pos
  if offsetsStart < pos + len then throw .bucketOverflows
  match Utf8.ofBytes? (slice data pos len) with
  | none => throw .invalidUtf8
  | some first => return (first, pos + len)

/-- The lengths of an entry and the position of its suffix, which ends within
the data. -/
def readLengths (data : Bytes) (offsetsStart pos : ℕ) : Result (ℕ × ℕ × ℕ) := do
  let (prefixLen, pos) ← readVint data pos
  let (suffixLen, pos) ← readVint data pos
  if offsetsStart < pos + suffixLen then throw .entryOverflows
  return (prefixLen, suffixLen, pos)

/-- The entry with that prefix of the reference and the suffix at `pos`. -/
def readSuffix (data : Bytes) (ref : Utf8) (prefixLen suffixLen pos : ℕ) : Result Utf8 :=
  if ref.bytes.length < prefixLen then .error (.prefixTooLong prefixLen ref.bytes.length)
  else if hb : isCharBoundary ref.bytes prefixLen = true then
    match Utf8.ofBytes? (slice data pos suffixLen) with
    | none => .error .invalidUtf8Suffix
    | some suffix =>
      .ok ⟨ref.bytes.take prefixLen ++ suffix.bytes, by
        rw [validUtf8_append (validUtf8_take ref.valid hb), suffix.valid]⟩
  else .error (.prefixInsideCharacter prefixLen)

def readEntry (data : Bytes) (offsetsStart : ℕ) (ref : Utf8) (pos : ℕ) : Result (Utf8 × ℕ) := do
  let (prefixLen, suffixLen, pos) ← readLengths data offsetsStart pos
  let entry ← readSuffix data ref prefixLen suffixLen pos
  return (entry, pos + suffixLen)

def readEntries (v : Version) (data : Bytes) (offsetsStart : ℕ) : ℕ → Utf8 → ℕ → Result (List Utf8 × ℕ)
  | 0, _, pos => .ok ([], pos)
  | count + 1, ref, pos => do
    let (entry, pos) ← readEntry data offsetsStart ref pos
    let (rest, pos) ← readEntries v data offsetsStart count (v.reference ref entry) pos
    return (entry :: rest, pos)

/-- The `count` entries of the bucket at `pos`, and where it ends. -/
def readBucket (v : Version) (data : Bytes) (offsetsStart count pos : ℕ) : Result (List Utf8 × ℕ) := do
  let (first, pos) ← readFirst data offsetsStart pos
  let (rest, pos) ← readEntries v data offsetsStart (count - 1) first pos
  return (first :: rest, pos)

/-- What the header and the offset table say. -/
structure Layout where
  bucketSize : ℕ
  numValues : ℕ
  offsets : List ℕ
  offsetsStart : ℕ
  deriving DecidableEq

namespace Layout

/-- The entries of bucket `b`. -/
def count (l : Layout) (b : ℕ) : ℕ := min (b * l.bucketSize + l.bucketSize) l.numValues - b * l.bucketSize

/-- Where bucket `b` has to end. -/
def expectedEnd (l : Layout) (b : ℕ) : ℕ := if b + 1 < l.offsets.length then 12 + l.offsets.getD (b + 1) 0 else l.offsetsStart

end Layout

/-- The checks behind the header, up to the offset table. -/
def readLayout (data : Bytes) : Result Layout := do
  let bucketSize := leAt data 4 4
  let numValues := leAt data 4 8
  if data.length - 12 < numValues then throw (.tooManyValues numValues (data.length - 12) data.length)
  let numBuckets := divCeil numValues bucketSize
  if data.length < 12 + numBuckets * 4 then throw .offsetTableTruncated
  let offsetsStart := data.length - numBuckets * 4
  let offsets := (List.range numBuckets).map fun i => leAt data 4 (offsetsStart + i * 4)
  validateBucketOffsets offsets (offsetsStart - 12)
  return ⟨bucketSize, numValues, offsets, offsetsStart⟩

/-- The buckets from `b` on, each of which ends where the next one starts. -/
def readBuckets (v : Version) (data : Bytes) (l : Layout) : ℕ → List ℕ → Result (List Utf8)
  | _, [] => .ok []
  | b, offset :: offsets => do
    let (values, pos) ← readBucket v data l.offsetsStart (l.count b) (12 + offset)
    if pos ≠ l.expectedEnd b then throw (.bucketEnd b pos (l.expectedEnd b))
    let rest ← readBuckets v data l (b + 1) offsets
    return values ++ rest

def deserializeV1 (data : Bytes) : Result (List Utf8) :=
  if leAt data 4 8 = 0 then .ok []
  else if leAt data 4 4 = 0 then .error .bucketSizeZero
  else do
    let l ← readLayout data
    readBuckets .v1 data l 0 l.offsets

def deserializeV2 (data : Bytes) : Result (List Utf8) :=
  if leAt data 4 8 = 0 then .ok []
  else if leAt data 4 4 = 0 then .error .bucketSizeZero
  else if !isPowerOfTwo (leAt data 4 4) then .error (.bucketSizeNotPowerOfTwo (leAt data 4 4))
  else do
    let l ← readLayout data
    readBuckets .v2 data l 0 l.offsets

def deserialize (data : Bytes) : Result (List Utf8) :=
  if data.length < 12 then .error .tooShort
  else
    match leAt data 4 0 with
    | 1 => deserializeV1 data
    | 2 => deserializeV2 data
    | other => .error (.version other)

/-! ## Random access -/

/-- Past `count` entries, without a look at their strings. -/
def skipEntries (data : Bytes) (offsetsStart : ℕ) : ℕ → ℕ → Result ℕ
  | 0, pos => .ok pos
  | count + 1, pos => do
    let (_, suffixLen, pos) ← readLengths data offsetsStart pos
    skipEntries data offsetsStart count (pos + suffixLen)

def skipV2Bucket (data : Bytes) (offsetsStart count pos : ℕ) : Result ℕ := do
  let (len, pos) ← readVint data pos
  if offsetsStart < pos + len then throw .bucketOverflows
  skipEntries data offsetsStart (count - 1) (pos + len)

/-- Every bucket below `n` ends where the next one starts. -/
def checkBuckets (data : Bytes) (l : Layout) : ℕ → ℕ → Result Unit
  | _, 0 => .ok ()
  | b, n + 1 => do
    let stop ← skipV2Bucket data l.offsetsStart (l.count b) (12 + l.offsets.getD b 0)
    if stop ≠ l.expectedEnd b then throw (.bucketEnd b stop (l.expectedEnd b))
    checkBuckets data l (b + 1) n

/-- The entry `steps` after the base: those between are skipped. -/
def getEntry (data : Bytes) (offsetsStart : ℕ) (base : Utf8) : ℕ → ℕ → Result Utf8
  | 0, _ => .ok base
  | steps + 1, pos => do
    let (prefixLen, suffixLen, pos) ← readLengths data offsetsStart pos
    if steps = 0 then readSuffix data base prefixLen suffixLen pos
    else getEntry data offsetsStart base steps (pos + suffixLen)

def getV2 (data : Bytes) (ordinal : ℕ) : Result (Option Utf8) :=
  if data.length < 12 then .error .tooShort
  else if leAt data 4 0 ≠ 2 then .error (.notVersion2 (leAt data 4 0))
  else if !isPowerOfTwo (leAt data 4 4) then .error .bucketSizeInvalid
  else if leAt data 4 8 ≤ ordinal then .ok none
  else do
    let l ← readLayout data
    checkBuckets data l 0 (ordinal / l.bucketSize + 1)
    let (base, pos) ← readFirst data l.offsetsStart (12 + l.offsets.getD (ordinal / l.bucketSize) 0)
    let entry ← getEntry data l.offsetsStart base (ordinal % l.bucketSize) pos
    return some entry

end FerroDruid.Dict
