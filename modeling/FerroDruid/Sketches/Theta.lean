import FerroDruid.Lib.Bytes
import FerroDruid.Lib.Float64
import FerroDruid.Lib.Sample
/-!
# Theta sketches of Druid

The decoder and the set operations of `ferrodruid-sketches/src/theta.rs`. A sketch keeps the
hashes below a bound; one that was decoded from Druid compares them as integers, and
its `theta` is the bound as a fraction.

A failed check has a constructor of its own, with what its text shows.
-/

namespace FerroDruid.Sketches

open Lib

instance instLinearOrderHash : LinearOrder UInt64 where
  le_refl := UInt64.le_refl
  le_trans _ _ _ := UInt64.le_trans
  le_antisymm _ _ := UInt64.le_antisymm
  le_total := UInt64.le_total
  lt_iff_le_not_ge a b := by
    rw [UInt64.lt_iff_toNat_lt, UInt64.le_iff_toNat_le, UInt64.le_iff_toNat_le]
    omega
  toDecidableLE := inferInstance
  toDecidableEq := inferInstance
  toDecidableLT := inferInstance

/-- What a `Serialization` error says of a compact image, or of the hashes of any image. -/
inductive DruidCompactFault where
  | preambleShort (len : ℕ)
  | serialVersion (version : UInt8)
  | family (id : UInt8)
  | lgNomLongs (value : UInt8)
  | emptyShape (preLongs len : ℕ)
  | singleItemShape (len preLongs : ℕ)
  | preLongsOneShape (len : ℕ)
  | truncated (preLongs len : ℕ)
  | negativeCount (raw : Int32)
  | preLongsUnsupported (other : ℕ)
  | thetaLong (value : Int64)
  | countAboveMaximum (count : ℕ)
  | length (expected count got : ℕ)
  | unexpectedEnd
  | notAscending (raw previous : UInt64)
  | duplicate (raw : UInt64) (count : ℕ)
  | countMismatch (decoded count : ℕ)
  | hashRange (raw : UInt64) (thetaLong : Int64)
  | notBelowBound (hash thetaBound : UInt64)
  deriving DecidableEq

/-- A Druid sketch with a native one, or with one of another seed. -/
inductive SketchError where
  | hashSpaceMismatch (op : String) (seeds : Option (UInt16 × UInt16))
  deriving DecidableEq

structure ThetaSketch where
  theta : F64
  thetaBound : UInt64
  maxSize : ℕ
  hashes : Finset UInt64
  druidOrigin : Bool
  druidSeedHash : Option UInt16
  deriving DecidableEq

def defaultMaxSize : ℕ := 4096

def dsMaxRetained : ℕ := 2 ^ 26

def maxHash : UInt64 := 0xFFFFFFFFFFFFFFFF

def maxThetaLong : Int64 := 0x7FFFFFFFFFFFFFFF

/-- `n as f64` divided by a power of two, which is exact. -/
def fraction (n e : ℕ) : F64 := .ofUnits false (F64.units (F64.roundBits (F64.unitsOne * n)) / 2 ^ e)

/-- `u64::MAX as f64` is the 64th power of two. -/
def normalise (hash : UInt64) : F64 := fraction hash.toNat 64

def druidThetaBound (thetaLong : Int64) : UInt64 := thetaLong.toUInt64 <<< 1

namespace ThetaSketch

/-- The sketch of a row without a value. -/
def emptyDruidOrigin : ThetaSketch where
  theta := .ofInt 1
  thetaBound := maxHash
  maxSize := defaultMaxSize
  hashes := ∅
  druidOrigin := true
  druidSeedHash := none

/-! ## Set operations -/

def resolvedOrigin (self other : ThetaSketch) (op : String) : Except SketchError Bool :=
  if self.druidOrigin = other.druidOrigin then .ok self.druidOrigin
  else if self.hashes = ∅ then if other.hashes = ∅ then .ok true else .ok other.druidOrigin
  else if other.hashes = ∅ then .ok self.druidOrigin
  else .error (.hashSpaceMismatch op none)

def resolvedSeed (self other : ThetaSketch) (op : String) : Except SketchError (Option UInt16) :=
  if self.hashes = ∅ ∧ other.hashes ≠ ∅ then .ok other.druidSeedHash
  else if other.hashes = ∅ then .ok (self.druidSeedHash.or other.druidSeedHash)
  else match self.druidSeedHash, other.druidSeedHash with
    | some a, some b => if a ≠ b then .error (.hashSpaceMismatch op (some (a, b))) else .ok (some a)
    | a, b => .ok (a.or b)

def resolvedIdentity (self other : ThetaSketch) (op : String) : Except SketchError (Bool × Option UInt16) := do
  let origin ← self.resolvedOrigin other op
  let seed ← self.resolvedSeed other op
  .ok (origin, if origin then seed else none)

/-- `f64::min` of two numbers. -/
def minTheta (a b : F64) : F64 := if F64.lt b a then b else a

/-- An empty side has no say. -/
def resolvedThreshold (self other : ThetaSketch) : F64 × UInt64 :=
  if self.hashes = ∅ then
    if other.hashes = ∅ then (.ofInt 1, maxHash) else (other.theta, other.thetaBound)
  else if other.hashes = ∅ then (self.theta, self.thetaBound)
  else (minTheta self.theta other.theta, min self.thetaBound other.thetaBound)

def belowThreshold (s : ThetaSketch) (hash : UInt64) : Bool :=
  if s.druidOrigin then hash < s.thetaBound else F64.lt (normalise hash) s.theta

/-- The loop of `trim`, with a bound on its turns. -/
def trimLoop : ℕ → ThetaSketch → ThetaSketch
  | 0, s => s
  | turns + 1, s =>
    if h : s.maxSize < s.hashes.card then
      let largest := s.hashes.max' (Finset.card_pos.1 (Nat.zero_lt_of_lt h))
      trimLoop turns { s with hashes := s.hashes.erase largest, theta := normalise largest, thetaBound := largest }
    else s

/-- Every turn removes a hash. -/
def trim (s : ThetaSketch) : ThetaSketch := trimLoop s.hashes.card s

def union (self other : ThetaSketch) : Except SketchError ThetaSketch := do
  let (druidOrigin, druidSeedHash) ← self.resolvedIdentity other "union"
  let (theta, thetaBound) := self.resolvedThreshold other
  let result : ThetaSketch := ⟨theta, thetaBound, max self.maxSize other.maxSize, ∅, druidOrigin, druidSeedHash⟩
  .ok (trim { result with hashes := (self.hashes ∪ other.hashes).filter fun h => result.belowThreshold h })

def intersect (self other : ThetaSketch) : Except SketchError ThetaSketch := do
  let (druidOrigin, druidSeedHash) ← self.resolvedIdentity other "intersect"
  let (theta, thetaBound) := self.resolvedThreshold other
  let result : ThetaSketch := ⟨theta, thetaBound, max self.maxSize other.maxSize, ∅, druidOrigin, druidSeedHash⟩
  .ok { result with hashes := self.hashes.filter fun h => h ∈ other.hashes ∧ result.belowThreshold h }

/-- What is in the first sketch and not in the second. -/
def difference (self other : ThetaSketch) : Except SketchError ThetaSketch := do
  let (druidOrigin, druidSeedHash) ← self.resolvedIdentity other "difference"
  let (theta, thetaBound) := self.resolvedThreshold other
  let result : ThetaSketch := ⟨theta, thetaBound, self.maxSize, ∅, druidOrigin, druidSeedHash⟩
  .ok { result with hashes := self.hashes.filter fun h => h ∉ other.hashes ∧ result.belowThreshold h }

/-! ## Decoding -/

def readU64 (data : Bytes) (pos : ℕ) : Except DruidCompactFault UInt64 :=
  if data.length < pos + 8 then .error .unexpectedEnd else .ok (.ofNat (leAt data 8 pos))

def checkAscending (ordered : Bool) (prev : Option UInt64) (raw : UInt64) : Except DruidCompactFault Unit :=
  match prev with
  | some p => if ordered ∧ raw ≤ p then .error (.notAscending raw p) else .ok ()
  | none => .ok ()

def checkFresh (hashes : Finset UInt64) (stored raw : UInt64) (count : ℕ) : Except DruidCompactFault Unit :=
  if stored ∈ hashes then .error (.duplicate raw count) else .ok ()

/-- The loop of `read_retained_hashes`, with `remaining` turns to go. -/
def readRetainedLoop (data : Bytes) (count : ℕ) (ordered : Bool) (decodeHash : UInt64 → Except DruidCompactFault UInt64) :
    ℕ → ℕ → Option UInt64 → Finset UInt64 → Except DruidCompactFault (Finset UInt64)
  | 0, _, _, hashes => .ok hashes
  | remaining + 1, pos, prev, hashes => do
    let raw ← readU64 data pos
    checkAscending ordered prev raw
    let stored ← decodeHash raw
    checkFresh hashes stored raw count
    readRetainedLoop data count ordered decodeHash remaining (pos + 8) (some raw) (insert stored hashes)

def checkCount (hashes : Finset UInt64) (count : ℕ) : Except DruidCompactFault (Finset UInt64) :=
  if hashes.card ≠ count then .error (.countMismatch hashes.card count) else .ok hashes

def readRetainedHashes (data : Bytes) (pos count : ℕ) (ordered : Bool) (decodeHash : UInt64 → Except DruidCompactFault UInt64) :
    Except DruidCompactFault (Finset UInt64) := do
  let hashes ← readRetainedLoop data count ordered decodeHash count pos none ∅
  checkCount hashes count

def rescaleDruidHash (hash : UInt64) (thetaLong : Int64) : Except DruidCompactFault UInt64 :=
  if hash = 0 ∨ 0x8000000000000000 ≤ hash ∨ thetaLong.toUInt64 ≤ hash then .error (.hashRange hash thetaLong) else .ok (hash <<< 1)

/-- The preamble, as far as it is used. -/
structure Preamble where
  preLongs : ℕ
  serVer : UInt8
  family : UInt8
  lgNomLongs : UInt8
  flags : UInt8
  seedHash : UInt16

def readPreamble (data : Bytes) : Except DruidCompactFault Preamble :=
  match data with
  | b0 :: serVer :: family :: lgNomLongs :: _ :: flags :: s0 :: s1 :: _ =>
    .ok ⟨(b0 &&& 0x3F).toNat, serVer, family, lgNomLongs, flags, .ofNat (leNat [s0, s1])⟩
  | _ => .error (.preambleShort data.length)

def checkPreamble (p : Preamble) : Except DruidCompactFault Unit :=
  if p.serVer ≠ 3 then .error (.serialVersion p.serVer)
  else if p.family ≠ 3 then .error (.family p.family)
  else if 26 < p.lgNomLongs then .error (.lgNomLongs p.lgNomLongs)
  else .ok ()

/-- The budget of a sketch; degenerate images carry no size. -/
def nominal (lgNomLongs : UInt8) : ℕ := if lgNomLongs = 0 then defaultMaxSize else 1 <<< lgNomLongs.toNat

def decodeEmpty (data : Bytes) (p : Preamble) : Except DruidCompactFault ThetaSketch :=
  if p.preLongs ≠ 1 ∨ data.length ≠ 8 then .error (.emptyShape p.preLongs data.length)
  else .ok ⟨.ofInt 1, druidThetaBound maxThetaLong, nominal p.lgNomLongs, ∅, true, some p.seedHash⟩

def checkSingleItem (data : Bytes) (p : Preamble) : Except DruidCompactFault Unit :=
  if p.preLongs ≠ 1 ∨ data.length ≠ 16 then .error (.singleItemShape data.length p.preLongs) else .ok ()

def decodeSingleItem (data : Bytes) (p : Preamble) : Except DruidCompactFault ThetaSketch := do
  checkSingleItem data p
  let hashes ← readRetainedHashes data 8 1 false fun h => rescaleDruidHash h maxThetaLong
  .ok ⟨.ofInt 1, druidThetaBound maxThetaLong, max (nominal p.lgNomLongs) 1, hashes, true, some p.seedHash⟩

/-- The retained count, the threshold and where the hashes start. -/
def readHeader (data : Bytes) (p : Preamble) : Except DruidCompactFault (ℕ × Int64 × ℕ) :=
  if p.preLongs = 1 then
    if data.length ≠ 8 then .error (.preLongsOneShape data.length) else .ok (0, maxThetaLong, 8)
  else if p.preLongs = 2 ∨ p.preLongs = 3 then
    if data.length < p.preLongs * 8 then .error (.truncated p.preLongs data.length)
    else
      let rawCount := Int32.ofNat (leAt data 4 8)
      if rawCount < 0 then .error (.negativeCount rawCount)
      else
        let thetaLong := if p.preLongs = 3 then Int64.ofNat (leAt data 8 16) else maxThetaLong
        .ok (rawCount.toNatClampNeg, thetaLong, p.preLongs * 8)
  else .error (.preLongsUnsupported p.preLongs)

def checkHeader (data : Bytes) (curCount : ℕ) (thetaLong : Int64) (hashesAt : ℕ) : Except DruidCompactFault Unit :=
  if thetaLong ≤ 0 then .error (.thetaLong thetaLong)
  else if dsMaxRetained < curCount then .error (.countAboveMaximum curCount)
  else if data.length ≠ hashesAt + curCount * 8 then .error (.length (hashesAt + curCount * 8) curCount data.length)
  else .ok ()

def decodeGeneral (data : Bytes) (p : Preamble) : Except DruidCompactFault ThetaSketch := do
  let (curCount, thetaLong, hashesAt) ← readHeader data p
  checkHeader data curCount thetaLong hashesAt
  let theta := fraction thetaLong.toNatClampNeg 63
  let ordered := p.flags &&& 0x10 ≠ 0
  let hashes ← readRetainedHashes data hashesAt curCount ordered fun h => rescaleDruidHash h thetaLong
  .ok ⟨theta, druidThetaBound thetaLong, max (nominal p.lgNomLongs) curCount, hashes, true, some p.seedHash⟩

/-- A single item is known by its shape, with the flag or without it. -/
def fromDruidCompact (data : Bytes) : Except DruidCompactFault ThetaSketch := do
  let p ← readPreamble data
  checkPreamble p
  if p.flags &&& 0x04 ≠ 0 then decodeEmpty data p
  else if p.flags &&& 0x20 ≠ 0 ∨ p.preLongs = 1 ∧ data.length = 16 then decodeSingleItem data p
  else decodeGeneral data p

end ThetaSketch

end FerroDruid.Sketches
