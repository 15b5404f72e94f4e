import FerroDruid.Historical.Ledger
import FerroDruid.Historical.ResidentLru
/-!
# A Historical that spills

The spill mode of `Historical` in `ferrodruid-historical/src/lib.rs`: a loaded
segment is on disk and is decoded when it is used, and the decodes are pinned by
a `ResidentLru`. The calls take both locks, so they come one after another; a
query is one `materialize` after another.

The v9 writer and reader are parameters.
-/

namespace FerroDruid.Historical

open Lib

def DruidError.display : DruidError → String
  | query text => "query error: " ++ text
  | segment text => "segment error: " ++ text
  | internal text => "internal error: " ++ text
  | resourceLimit kind limit observed =>
    "resource limit exceeded: " ++ kind ++ " (limit=" ++ toString limit ++ ", observed=" ++ toString observed ++ ")"

structure Interval where
  startMillis : Int64
  endMillis : Int64
  deriving DecidableEq

/-- A segment with the interval of its header, which only the spill mode reads. -/
structure SpillSegment (B T H : Type) extends SegmentData B T H where
  interval : Interval

/-- A directory `<name>-<counter>` in the spill root of the instance. -/
structure SpillDir where
  name : String
  counter : UInt64
  deriving DecidableEq

structure SpillEntry (B T H : Type) where
  dir : SpillDir
  /-- The `Weak` of the last decode. -/
  decoded : Option (Decode (SpillSegment B T H))
  estimatedBytes : UInt64

structure SpillSwapEntry (B T H : Type) where
  id : String
  data : SpillSegment B T H
  datasource : Option String

structure PreparedSpill (B T H : Type) where
  id : String
  dir : SpillDir
  datasource : Option String
  estimatedBytes : UInt64

/-- A node, its spill root and the segment format; `openSegment` of a directory that
is gone is that of `none`. -/
structure SpillNode (B T H I : Type) extends Node B T H where
  spillInstanceDir : String
  writeSegment : SpillSegment B T H → Except DruidError I
  openSegment : Option I → Except DruidError (SpillSegment B T H)

structure Spill (B T H I : Type) where
  segments : HashMap String (SpillEntry B T H)
  segmentDatasources : HashMap String String
  lru : ResidentLru (SpillSegment B T H)
  residentBytes : UInt64
  spillCounter : UInt64
  decodeCount : ℕ
  disk : HashMap SpillDir I
  /-- The decodes that queries hold, by address, once for every reference. -/
  held : List ℕ

section

variable {B T H I : Type}

/-! ## What survives the disk -/

/-- A column's type tag and length. -/
def columnShape : ColumnData B T H → String × ℕ
  | .long values => ("LONG", values.items.length)
  | .longNullable values _ => ("LONG (nullable)", values.items.length)
  | .float values => ("FLOAT", values.items.length)
  | .double values => ("DOUBLE", values.items.length)
  | .string _ encodedValues _ => ("STRING", encodedValues.items.length)
  | .stringMulti _ _ rowOffsets _ => ("STRING (multi-value)", rowOffsets.items.length - 1)
  | .complex bytes => ("COMPLEX", bytes.items.length)
  | .complexTheta sketches => ("COMPLEX<thetaSketch>", sketches.items.length)
  | .complexHyperUnique sketches => ("COMPLEX<hyperUnique>", sketches.items.length)

def ensureSpillable (segmentId : String) (segment : SegmentData B T H) : Except DruidError Unit :=
  match segment.columns.get "__time" with
  | some (.long _) => .ok ()
  | some other =>
    .error (.segment ("spill mode: refusing to admit segment '" ++ segmentId ++ "' — its `__time` column is " ++ (columnShape other).1 ++
      ", not LONG; a v9 spill round-trip reloads `__time` with its declared type, " ++
      "and a non-LONG `__time` makes every later interval/timestamp query on the spilled " ++
      "copy fail permanently, so rejecting fail-loud at admission instead"))
  | none =>
    .error (.segment ("spill mode: refusing to admit segment '" ++ segmentId ++ "' — it has no `__time` column, " ++
      "which a v9 spill round-trip requires (the writer omits `__time` and the strict " ++
      "reload rejects the archive), so a spilled copy could never be re-decoded; rejecting " ++
      "fail-loud at admission instead of failing every later query on it"))

/-- The names of the columns, as a `BTreeSet`. -/
def columnNames (segment : SegmentData B T H) : List String :=
  (segment.columns.entries.map (·.1.text)).mergeSort fun a b => decide (a ≤ b)

def showNames (names : List String) : String := "\x7b" ++ ", ".intercalate (names.map String.quote) ++ "\x7d"

def showShape (shape : String × ℕ) : String := "(" ++ shape.1.quote ++ ", " ++ toString shape.2 ++ ")"

/-- The first difference between a segment and what was read back, if there is any. -/
def spillMismatch (original readBack : SpillSegment B T H) : Option String :=
  let texts (names : Vec Text) : List String := names.items.map (·.text)
  if readBack.numRows ≠ original.numRows then
    some ("row count " ++ toString original.numRows ++ " → " ++ toString readBack.numRows)
  else if readBack.interval ≠ original.interval then some "time interval changed"
  else if texts readBack.dimensions ≠ texts original.dimensions then some "dimension list changed"
  else if texts readBack.metrics ≠ texts original.metrics then some "metric list changed"
  else if columnNames original.toSegmentData ≠ columnNames readBack.toSegmentData then
    some ("column set changed (wrote " ++ showNames (columnNames original.toSegmentData) ++ ", read back " ++
      showNames (columnNames readBack.toSegmentData) ++ ")")
  else
    let columnMismatch := original.columns.entries.findSome? fun e =>
      match readBack.columns.get e.1.text with
      | none => some ("column `" ++ e.1.text ++ "` missing after round-trip")
      | some readCol =>
        if columnShape e.2 ≠ columnShape readCol then
          some ("column `" ++ e.1.text ++ "` type/length " ++ showShape (columnShape e.2) ++ " → " ++ showShape (columnShape readCol))
        else none
    match columnMismatch with
    | some what => some what
    | none =>
      match original.columns.get "__time", readBack.columns.get "__time" with
      | some (.long origTs), some (.long readTs) =>
        if origTs.items ≠ readTs.items then some "`__time` values changed after round-trip" else none
      | _, _ => none

variable (node : SpillNode B T H I)

def verifySpillRoundtrip (segmentId : String) (original : SpillSegment B T H) (image : I) : Except DruidError Unit :=
  match node.openSegment (some image) with
  | .error e =>
    .error (.segment ("spill round-trip verify: segment '" ++ segmentId ++ "' could not be re-read after being " ++
      "written (a later query would fail identically); rejecting at admission fail-loud: " ++ e.display))
  | .ok readBack =>
    match spillMismatch original readBack with
    | none => .ok ()
    | some what =>
      .error (.segment ("spill round-trip verify: segment '" ++ segmentId ++ "' is not faithfully restored by a v9 " ++
        "write→read round-trip (" ++ what ++ "); a spilled query would diverge from the original, so " ++
        "rejecting the admission fail-loud"))

def sanitizeSegmentId (id : String) : String :=
  let sanitized := String.ofList ((id.toList.map fun c => if c.isAlphanum ∨ c ∈ ['-', '_', '.'] then c else '_').take 180)
  if sanitized = "" then "seg" else sanitized

def SpillDir.display (dir : SpillDir) : String := node.spillInstanceDir ++ "/" ++ dir.name ++ "-" ++ toString dir.counter

namespace Spill

variable (s : Spill B T H I)

def new : Spill B T H I := ⟨∅, ∅, .new, 0, 0, 0, ∅, []⟩

/-! ## Writing -/

def removeSpillDir (dir : SpillDir) : Spill B T H I := { s with disk := s.disk.erase dir }

def removeSpillDirs (dirs : List SpillDir) : Spill B T H I := dirs.foldl removeSpillDir s

/-- What is at the new directory is removed when the write or the check fails. -/
def spillWrite (segmentId : String) (segment : SpillSegment B T H) : Spill B T H I × Except DruidError SpillDir :=
  let dir : SpillDir := ⟨sanitizeSegmentId segmentId, s.spillCounter⟩
  let s := { s with spillCounter := s.spillCounter + 1 }
  let written : Except DruidError I := do
    let image ← node.writeSegment segment
    if dir ∈ s.disk then
      throw (.segment ("refusing to overwrite populated segment dir " ++ dir.display node ++ "/v9 (Wave 40-B atomic rename)"))
    verifySpillRoundtrip node segmentId segment image
    .ok image
  match written with
  | .error e => (s.removeSpillDir dir, .error e)
  | .ok image => ({ s with disk := s.disk.insert dir image }, .ok dir)

def loadSpilled (segmentId : String) (datasource : Option String) (segment : SpillSegment B T H) :
    Spill B T H I × Except DruidError Unit :=
  match ensureSpillable segmentId segment.toSegmentData with
  | .error e => (s, .error e)
  | .ok () =>
    match s.spillWrite node segmentId segment with
    | (s, .error e) => (s, .error e)
    | (s, .ok dir) =>
      if (s.segments.lookup segmentId).isSome then
        (s.removeSpillDir dir, .error (.segment ("segment id collision: '" ++ segmentId ++ "' is already loaded")))
      else
        let entry : SpillEntry B T H := ⟨dir, none, estimateSegmentBytes node.platform segment.toSegmentData⟩
        ({ s with
            segments := s.segments.insert segmentId entry
            segmentDatasources := match datasource with
              | some datasource => s.segmentDatasources.insert segmentId datasource
              | none => s.segmentDatasources },
          .ok ())

def loadSegment (segmentId : String) (segment : SpillSegment B T H) : Spill B T H I × Except DruidError Unit :=
  match checkNullsWhenStrict node.toNode segmentId segment.toSegmentData with
  | .error e => (s, .error e)
  | .ok () => s.loadSpilled node segmentId none segment

def loadSegmentWithDatasource (segmentId datasource : String) (segment : SpillSegment B T H) :
    Spill B T H I × Except DruidError Unit :=
  match checkNullGeneration node.toNode datasource segment.toSegmentData node.strictNullGeneration with
  | .error e => (s, .error e)
  | .ok () => s.loadSpilled node segmentId (some datasource) segment

/-! ## Decoding -/

/-- A decode lives as long as it is pinned or a query holds it. -/
def alive (data : Decode (SpillSegment B T H)) : Bool :=
  (s.lru.nodes.values.any fun n => n.data.address = data.address) || decide (data.address ∈ s.held)

/-- `Weak::upgrade`. -/
def upgrade (entry : SpillEntry B T H) : Option (Decode (SpillSegment B T H)) := entry.decoded.filter s.alive

def decode (entry : SpillEntry B T H) (segId : String) : Except DruidError (Decode (SpillSegment B T H)) :=
  match node.openSegment (s.disk.lookup entry.dir) with
  | .error e =>
    .error (.segment ("failed to re-read spilled segment " ++ segId ++ " from " ++ entry.dir.display node ++ ": " ++ e.display))
  | .ok segment => .ok ⟨s.decodeCount, segment⟩

/-- The LRU admits a decode, which the caller then holds. -/
def admitSegment (entry : SpillEntry B T H) (segId : String) (data : Decode (SpillSegment B T H)) : Spill B T H I :=
  let (lru, residentBytes) := s.lru.admitSegment segId data entry.estimatedBytes s.residentBytes node.maxCacheBytes
  { s with lru, residentBytes, held := data.address :: s.held }

def materialize (entry : SpillEntry B T H) (segId : String) : Spill B T H I × Except DruidError (Decode (SpillSegment B T H)) :=
  match s.upgrade entry with
  | some data => (s.admitSegment node entry segId data, .ok data)
  | none =>
    match s.decode node entry segId with
    | .error e => (s, .error e)
    | .ok data =>
      let s := { s with
        segments := s.segments.insert segId { entry with decoded := some data }
        decodeCount := s.decodeCount + 1 }
      (s.admitSegment node entry segId data, .ok data)

/-- The last reference of a caller to a decode goes. -/
def release (address : ℕ) : Spill B T H I := { s with held := s.held.erase address }

def getSegment (segmentId : String) : Spill B T H I × Except DruidError (Option (Decode (SpillSegment B T H))) :=
  match s.segments.lookup segmentId with
  | none => (s, .ok none)
  | some entry =>
    let (s, result) := s.materialize node entry segmentId
    (s, result.map some)

def setSegmentDatasource (segmentId datasource : String) : Spill B T H I × Except DruidError Unit :=
  match s.segments.lookup segmentId with
  | none => (s, .error (.segment ("cannot map datasource for unloaded segment: " ++ segmentId)))
  | some entry =>
    match s.materialize node entry segmentId with
    | (s, .error e) => (s, .error e)
    | (s, .ok data) =>
      let s := s.release data.address
      match checkNullGeneration node.toNode datasource data.value.toSegmentData node.strictNullGeneration with
      | .error e => (s, .error e)
      | .ok () => ({ s with segmentDatasources := s.segmentDatasources.insert segmentId datasource }, .ok ())

/-! ## Dropping -/

def lruRemove (segId : String) : Spill B T H I :=
  let (lru, residentBytes) := s.lru.remove segId s.residentBytes
  { s with lru, residentBytes }

/-- An entry with its mapping and its pin. -/
def removeEntry (segmentId : String) : Spill B T H I :=
  lruRemove { s with segments := s.segments.erase segmentId, segmentDatasources := s.segmentDatasources.erase segmentId } segmentId

def dropSegment (segmentId : String) : Spill B T H I × Except DruidError Unit :=
  match s.segments.lookup segmentId with
  | none => (s, .error (.query ("segment not loaded: " ++ segmentId)))
  | some entry => ((s.removeEntry segmentId).removeSpillDir entry.dir, .ok ())

/-! ## Swapping segments -/

def checkSpillAdd (entry : SpillSwapEntry B T H) : Except DruidError Unit := do
  ensureSpillable entry.id entry.data.toSegmentData
  match entry.datasource with
  | some datasource => checkNullGeneration node.toNode datasource entry.data.toSegmentData node.strictNullGeneration
  | none => checkNullsWhenStrict node.toNode entry.id entry.data.toSegmentData

/-- Every add is written; the first failure takes back what was written. -/
def spillAll : List (SpillSwapEntry B T H) → List (PreparedSpill B T H) → Spill B T H I →
    Spill B T H I × Except DruidError (List (PreparedSpill B T H))
  | [], prepared, s => (s, .ok prepared)
  | entry :: add, prepared, s =>
    match s.spillWrite node entry.id entry.data with
    | (s, .error e) => (s.removeSpillDirs (prepared.map (·.dir)), .error e)
    | (s, .ok dir) =>
      spillAll add (prepared ++ [⟨entry.id, dir, entry.datasource, estimateSegmentBytes node.platform entry.data.toSegmentData⟩]) s

def checkSpillCollisions (dropIds : List String) : List String → List (PreparedSpill B T H) → Except DruidError Unit
  | _, [] => .ok ()
  | seenAddIds, prep :: prepared =>
    if prep.id ∈ seenAddIds then
      .error (.segment ("segment id collision: '" ++ prep.id ++ "' appears more than once in one replace_segments call" ++
        "; refusing the ambiguous swap"))
    else if (s.segments.lookup prep.id).isSome ∧ prep.id ∉ dropIds then
      .error (.segment ("segment id collision: '" ++ prep.id ++ "' is already loaded and not listed for removal" ++
        "; refusing the ambiguous swap"))
    else checkSpillCollisions dropIds (prep.id :: seenAddIds) prepared

/-- It never touches the LRU. -/
def takeResidentOrDecode (entry : SpillEntry B T H) (segId : String) :
    Spill B T H I × Except DruidError (Decode (SpillSegment B T H)) :=
  match s.upgrade entry with
  | some data => (s, .ok data)
  | none =>
    match s.decode node entry segId with
    | .error e => (s, .error e)
    | .ok data => ({ s with decodeCount := s.decodeCount + 1 }, .ok data)

def decodeVictims : List String → HashMap String (SpillSegment B T H) → Spill B T H I →
    Spill B T H I × Except DruidError (HashMap String (SpillSegment B T H))
  | [], decoded, s => (s, .ok decoded)
  | id :: dropIds, decoded, s =>
    match s.segments.lookup id with
    | none => decodeVictims dropIds decoded s
    | some entry =>
      match s.takeResidentOrDecode node entry id with
      | (s, .ok data) => decodeVictims dropIds (decoded.insert id data.value) s
      | (s, .error e) =>
        (s, .error (.segment ("spill replace: refusing to swap — removed victim '" ++ id ++ "' " ++
          "could not be decoded for the returned-entries contract (fail-closed, nothing mutated): " ++ e.display)))

/-- The victims, what was decoded of them, and their directories. -/
def removeVictims (decoded : HashMap String (SpillSegment B T H)) : List String → List (SpillSwapEntry B T H) → List SpillDir →
    Spill B T H I → Spill B T H I × List (SpillSwapEntry B T H) × List SpillDir
  | [], removed, victimDirs, s => (s, removed, victimDirs)
  | id :: dropIds, removed, victimDirs, s =>
    match s.segments.lookup id with
    | none => removeVictims decoded dropIds removed victimDirs s
    | some entry =>
      -- the first of two equal ids takes the decode; the second finds no segment
      let removed := match decoded.lookup id with
        | some data => removed ++ [⟨id, data, s.segmentDatasources.lookup id⟩]
        | none => removed
      removeVictims decoded dropIds removed (victimDirs ++ [entry.dir]) (s.removeEntry id)

def addPrepared (s : Spill B T H I) (prep : PreparedSpill B T H) : Spill B T H I :=
  { s with
    segmentDatasources := match prep.datasource with
      | some datasource => s.segmentDatasources.insert prep.id datasource
      | none => s.segmentDatasources.erase prep.id
    segments := s.segments.insert prep.id ⟨prep.dir, none, prep.estimatedBytes⟩ }

/-- A swap decodes every victim before it changes anything; a pure drop decodes
nothing. -/
def swapPrepared (dropIds : List String) (prepared : List (PreparedSpill B T H)) :
    Spill B T H I × Except DruidError (List (SpillSwapEntry B T H)) :=
  match s.checkSpillCollisions dropIds [] prepared with
  | .error e => (s.removeSpillDirs (prepared.map (·.dir)), .error e)
  | .ok () =>
    match if prepared = [] then (s, .ok ∅) else decodeVictims node dropIds ∅ s with
    | (s, .error e) => (s.removeSpillDirs (prepared.map (·.dir)), .error e)
    | (s, .ok decoded) =>
      let (s, removed, victimDirs) := removeVictims decoded dropIds [] [] s
      ((prepared.foldl addPrepared s).removeSpillDirs victimDirs, .ok removed)

def replaceSegments (dropIds : List String) (add : List (SpillSwapEntry B T H)) :
    Spill B T H I × Except DruidError (List (SpillSwapEntry B T H)) :=
  match add.forM (checkSpillAdd node) with
  | .error e => (s, .error e)
  | .ok () =>
    match spillAll node add [] s with
    | (s, .error e) => (s, .error e)
    | (s, .ok prepared) => s.swapPrepared node dropIds prepared

end Spill

/-! ## Any call -/

inductive SpillCall (B T H I : Type) where
  | loadSegment (segmentId : String) (segment : SpillSegment B T H)
  | loadSegmentWithDatasource (segmentId datasource : String) (segment : SpillSegment B T H)
  | setSegmentDatasource (segmentId datasource : String)
  | dropSegment (segmentId : String)
  | replaceSegments (dropIds : List String) (add : List (SpillSwapEntry B T H))
  /-- Also a segment's turn in a query. -/
  | getSegment (segmentId : String)
  /-- A query lets go of a decode. -/
  | release (address : ℕ)
  /-- The disk changes under the node. -/
  | disk (disk : HashMap SpillDir I)

/-- What a call leaves. -/
def spillCall (s : Spill B T H I) : SpillCall B T H I → Spill B T H I
  | .loadSegment segmentId segment => (s.loadSegment node segmentId segment).1
  | .loadSegmentWithDatasource segmentId datasource segment => (s.loadSegmentWithDatasource node segmentId datasource segment).1
  | .setSegmentDatasource segmentId datasource => (s.setSegmentDatasource node segmentId datasource).1
  | .dropSegment segmentId => (s.dropSegment segmentId).1
  | .replaceSegments dropIds add => (s.replaceSegments node dropIds add).1
  | .getSegment segmentId => (s.getSegment node segmentId).1
  | .release address => s.release address
  | .disk disk => { s with disk }

end

end FerroDruid.Historical
