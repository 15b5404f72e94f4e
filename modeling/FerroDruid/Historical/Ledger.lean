import FerroDruid.Historical.Memory
import FerroDruid.Lib.HashMap
/-!
# The loaded segments of a Historical

The heap mode of `Historical` in `ferrodruid-historical/src/lib.rs`: the maps of
the loaded segments and of their data sources, and the bytes that are counted
for them. Every call takes both locks before it changes anything, so calls come
one after another.
-/

namespace FerroDruid.Historical

open Lib

inductive DruidError where
  | query (text : String)
  | segment (text : String)
  | internal (text : String)
  | resourceLimit (kind : String) (limit observed : UInt64)
  deriving DecidableEq

/-- A counted reference; it is shared if there is another one when it is made
mutable. -/
structure Arc (α : Type) where
  value : α
  shared : Bool

def Arc.new {α : Type} (value : α) : Arc α := ⟨value, false⟩

/-- `Arc::make_mut`: a shared value is copied first. -/
def Arc.makeMut {α : Type} (clone : α → α) (a : Arc α) : α := if a.shared then clone a.value else a.value

/-- A value in a map, with the capacity of the key that it is stored under. -/
structure Stored (α : Type) where
  keyCapacity : UInt64
  value : α

/-- `HashMap::insert`: a key that is there stays. -/
def insertStored {α : Type} (m : HashMap String (Stored α)) (key : Text) (value : α) : HashMap String (Stored α) :=
  m.insert key.text ⟨((m.lookup key.text).map (·.keyCapacity)).getD key.capacity, value⟩

section

variable {B T H : Type}

inductive Residency (B T H : Type) where
  | resident (data : SegmentData B T H)
  | spilled

structure SegmentEntry (B T H : Type) where
  residency : Residency B T H
  estimatedBytes : UInt64
  schema : CachedSchema

structure SegmentSwapEntry (B T H : Type) where
  id : Text
  data : Arc (SegmentData B T H)
  datasource : Option Text

structure PreparedSwapEntry (B T H : Type) where
  id : Text
  data : Arc (SegmentData B T H)
  datasource : Option (Text × Text)
  estimatedBytes : UInt64

/-- What a swap hands back of a segment. -/
structure RemovedEntry (B T H : Type) where
  id : Text
  data : SegmentData B T H
  datasource : Option Text

/-- What a node is started with, and the classification of a segment's columns by
`null_generation.rs`. -/
structure Node (B T H : Type) where
  platform : Platform B T H
  maxCacheBytes : UInt64
  strictNullGeneration : Bool
  legacyConsistentColumns : SegmentData B T H → List String

/-- What the locks guard. -/
structure Heap (B T H : Type) where
  segments : HashMap String (Stored (SegmentEntry B T H))
  segmentDatasources : HashMap String (Stored Text)
  currentCacheBytes : UInt64

def Heap.new : Heap B T H := ⟨∅, ∅, 0⟩

/-! ## Bytes -/

def segmentEntryBytes (p : Platform B T H) (idCapacity estimatedBytes schemaBytes : UInt64) : UInt64 :=
  saturatingAdd (saturatingAdd (saturatingAdd idCapacity estimatedBytes) schemaBytes) p.sizeOfSegmentEntry

def datasourceEntryBytes (idCapacity : UInt64) (datasource : Text) : UInt64 := saturatingAdd idCapacity datasource.capacity

def cacheBytesAfterDelta (current removedEntries addedEntries : UInt64) : UInt64 :=
  saturatingAdd (saturatingSub current removedEntries) addedEntries

def ensureCacheLimit (observed maximum : UInt64) : Except DruidError Unit :=
  if maximum < observed then .error (.resourceLimit "historical.cacheBytes" maximum observed) else .ok ()

/-- The flag of a segment is set right before it is measured. -/
def SegmentEntry.resident (p : Platform B T H) (data : Arc (SegmentData B T H)) : SegmentEntry B T H :=
  let correct := derivedTimeSorted data.value
  let data := if data.value.timeSorted ≠ correct then { data.makeMut (SegmentData.clone p) with timeSorted := correct } else data.value
  ⟨.resident data, estimateSegmentBytes p data, CachedSchema.fromSegment p data⟩

variable (node : Node B T H)

def checkNullGeneration (datasource : String) (segment : SegmentData B T H) (strict : Bool) : Except DruidError Unit :=
  let legacy := node.legacyConsistentColumns segment
  if legacy = [] ∨ ¬ strict then .ok ()
  else
    let columns := ", ".intercalate legacy
    .error (.segment ("strict_null_generation: datasource `" ++ datasource ++ "`: column(s) [" ++ columns ++
      "] contain legacy-null-consistent values (`\"\"` strings / `0` numerics) but carry no null " ++
      "markers (no null dictionary entry, no null-row bitmap, no null encoding) — cannot " ++
      "confirm this data was written with modern (SQL-compatible) null handling. If it was " ++
      "written by a legacy Druid (useDefaultValueForNull=true, the default on <= 27), " ++
      "NULL-sensitive results (COUNT(col), AVG/SUM over nullable columns, IS NULL, boolean " ++
      "predicates) will DIFFER from the source cluster. NOTE: this heuristic cannot " ++
      "distinguish legacy-coerced nulls from genuine empty-string/zero data; set " ++
      "strict_null_generation = false to load such segments with a warning instead"))

/-- The check that is made only by a strict node. -/
def checkNullsWhenStrict (id : String) (segment : SegmentData B T H) : Except DruidError Unit :=
  if node.strictNullGeneration then checkNullGeneration node id segment true else .ok ()

/-- The bytes of a stored segment, as they were counted. -/
def storedBytes (stored : Stored (SegmentEntry B T H)) : UInt64 :=
  segmentEntryBytes node.platform stored.keyCapacity stored.value.estimatedBytes (stored.value.schema.schemaHeapBytes node.platform)

def storedDatasourceBytes (stored : Stored Text) : UInt64 := datasourceEntryBytes stored.keyCapacity stored.value

/-! ## Calls -/

namespace Heap

variable (h : Heap B T H)

/-- What a call leaves and what it returns: nothing changes when a check fails. -/
def commit (checked : Except DruidError UInt64) (change : UInt64 → Heap B T H) : Heap B T H × Except DruidError Unit :=
  match checked with
  | .error e => (h, .error e)
  | .ok next => (change next, .ok ())

def ensureNotLoaded (segmentId why : String) : Except DruidError Unit :=
  if (h.segments.lookup segmentId).isSome then .error (.segment ("segment id collision: '" ++ segmentId ++ "' is already loaded" ++ why))
  else .ok ()

/-- The ledger after a delta, if it is in the limit. -/
def tryAdmit (removedEntries addedEntries : UInt64) : Except DruidError UInt64 := do
  let next := cacheBytesAfterDelta h.currentCacheBytes removedEntries addedEntries
  ensureCacheLimit next node.maxCacheBytes
  .ok next

def loadSegment (segmentId : String) (segment : SegmentData B T H) : Heap B T H × Except DruidError Unit :=
  let id := Text.ofStr segmentId
  let entry := SegmentEntry.resident node.platform (.new segment)
  let checked : Except DruidError UInt64 := do
    checkNullsWhenStrict node segmentId segment
    h.ensureNotLoaded segmentId ("; refusing to silently overwrite it (use replace_segments with the id in drop_ids " ++
      "for an explicit in-place refresh)")
    h.tryAdmit node 0 (storedBytes node ⟨id.capacity, entry⟩)
  h.commit checked fun next => { h with segments := insertStored h.segments id entry, currentCacheBytes := next }

def loadSegmentWithDatasource (segmentId datasource : String) (segment : SegmentData B T H) : Heap B T H × Except DruidError Unit :=
  let segmentKey := Text.ofStr segmentId
  let datasourceKey := Text.ofStr segmentId
  let datasourceValue := Text.ofStr datasource
  let entry := SegmentEntry.resident node.platform (.new segment)
  let checked : Except DruidError UInt64 := do
    checkNullGeneration node datasource segment node.strictNullGeneration
    h.ensureNotLoaded segmentId ""
    h.tryAdmit node 0 (saturatingAdd (storedBytes node ⟨segmentKey.capacity, entry⟩)
      (datasourceEntryBytes datasourceKey.capacity datasourceValue))
  h.commit checked fun next =>
    ⟨insertStored h.segments segmentKey entry, insertStored h.segmentDatasources datasourceKey datasourceValue, next⟩

def setSegmentDatasource (segmentId datasource : String) : Heap B T H × Except DruidError Unit :=
  let newKey := Text.ofStr segmentId
  let newValue := Text.ofStr datasource
  let checked : Except DruidError UInt64 :=
    match h.segments.lookup segmentId with
    | none => .error (.segment ("cannot map datasource for unloaded segment: " ++ segmentId))
    | some loaded =>
      match loaded.value.residency with
      | .spilled => .error (.internal "heap-mode segment is unexpectedly spilled")
      | .resident loadedData => do
        checkNullGeneration node datasource loadedData node.strictNullGeneration
        let (removedEntries, addedEntries) := match h.segmentDatasources.lookup segmentId with
          | some old => (storedDatasourceBytes old, datasourceEntryBytes old.keyCapacity newValue)
          | none => (0, datasourceEntryBytes newKey.capacity newValue)
        h.tryAdmit node removedEntries addedEntries
  h.commit checked fun next =>
    { h with segmentDatasources := insertStored h.segmentDatasources newKey newValue, currentCacheBytes := next }

/-- The bytes of a loaded segment, and of its mapping if it has one. -/
def loadedBytes (id : String) (total : UInt64) (loaded : Stored (SegmentEntry B T H)) : UInt64 :=
  let total := saturatingAdd total (storedBytes node loaded)
  match h.segmentDatasources.lookup id with
  | some datasource => saturatingAdd total (storedDatasourceBytes datasource)
  | none => total

def dropSegment (segmentId : String) : Heap B T H × Except DruidError Unit :=
  let checked : Except DruidError UInt64 :=
    match h.segments.lookup segmentId with
    | none => .error (.query ("segment not loaded: " ++ segmentId))
    | some loaded => h.tryAdmit node (h.loadedBytes node segmentId 0 loaded) 0
  h.commit checked fun next => ⟨h.segments.erase segmentId, h.segmentDatasources.erase segmentId, next⟩

/-! ## Swapping segments -/

def checkSwapNulls (entry : SegmentSwapEntry B T H) : Except DruidError Unit :=
  match entry.datasource with
  | some datasource => checkNullGeneration node datasource.text entry.data.value node.strictNullGeneration
  | none => checkNullsWhenStrict node entry.id.text entry.data.value

/-- Every id is added once, and is fresh or dropped. -/
def checkCollisions (dropIds : List Text) : List String → List (PreparedSwapEntry B T H) → Except DruidError Unit
  | _, [] => .ok ()
  | seenAddIds, entry :: add =>
    if entry.id.text ∈ seenAddIds then
      .error (.segment ("segment id collision: '" ++ entry.id.text ++ "' appears more than once in one " ++
        "replace_segments call; refusing the ambiguous swap"))
    else if (h.segments.lookup entry.id.text).isSome ∧ entry.id.text ∉ dropIds.map (·.text) then
      .error (.segment ("segment id collision: '" ++ entry.id.text ++ "' is already loaded and not listed for " ++
        "removal; refusing to silently overwrite it (two publications in " ++
        "the same millisecond over the same interval collide here — the previously loaded rows would be discarded)"))
    else checkCollisions dropIds (entry.id.text :: seenAddIds) add

/-- The bytes of what is dropped, every id once. -/
def removedBytes (dropIds : List Text) : UInt64 :=
  (dropIds.map (·.text)).dedup.foldl (fun total id =>
    match h.segments.lookup id with
    | none => total
    | some loaded => h.loadedBytes node id total loaded) 0

/-- The bytes removed and added so far, with those of one more entry. -/
def entryDelta (dropIds : List Text) (bytes : UInt64 × UInt64) (entry : PreparedSwapEntry B T H) : UInt64 × UInt64 :=
  let added := saturatingAdd bytes.2 (segmentEntryBytes node.platform entry.id.capacity entry.estimatedBytes
    ((CachedSchema.fromSegment node.platform entry.data.value).schemaHeapBytes node.platform))
  let segmentIsRemoved := entry.id.text ∈ dropIds.map (·.text) ∧ (h.segments.lookup entry.id.text).isSome
  let existing := if segmentIsRemoved then none else h.segmentDatasources.lookup entry.id.text
  match entry.datasource, existing with
  | some (_, newValue), some old =>
    (saturatingAdd bytes.1 (storedDatasourceBytes old), saturatingAdd added (datasourceEntryBytes old.keyCapacity newValue))
  | some (newKey, newValue), none => (bytes.1, saturatingAdd added (datasourceEntryBytes newKey.capacity newValue))
  | none, some old => (saturatingAdd bytes.1 (storedDatasourceBytes old), added)
  | none, none => (bytes.1, added)

def prepare (entry : SegmentSwapEntry B T H) : PreparedSwapEntry B T H where
  estimatedBytes := estimateSegmentBytes node.platform entry.data.value
  datasource := entry.datasource.map fun datasource => (entry.id.clone, datasource)
  id := entry.id
  data := entry.data

def checkReplace (dropIds : List Text) (add : List (SegmentSwapEntry B T H)) :
    Except DruidError (UInt64 × List (PreparedSwapEntry B T H)) := do
  add.forM (checkSwapNulls node)
  let add := add.map (prepare node)
  h.checkCollisions dropIds [] add
  let (removedEntries, addedEntries) := add.foldl (h.entryDelta node dropIds) (h.removedBytes node dropIds, 0)
  let next ← h.tryAdmit node removedEntries addedEntries
  .ok (next, add)

/-- The ids are dropped in order; what is not loaded is skipped. -/
def removeAll : List Text → List (RemovedEntry B T H) → Heap B T H → Heap B T H × Except DruidError (List (RemovedEntry B T H))
  | [], removed, h => (h, .ok removed)
  | id :: dropIds, removed, h =>
    match h.segments.lookup id.text with
    | none => removeAll dropIds removed h
    | some loaded =>
      let kept := { h with segments := h.segments.erase id.text }
      match loaded.value.residency with
      | .spilled => (kept, .error (.internal "heap-mode segment is unexpectedly spilled"))
      | .resident data =>
        removeAll dropIds (removed ++ [⟨id.clone, data, (h.segmentDatasources.lookup id.text).map (·.value)⟩])
          { kept with segmentDatasources := h.segmentDatasources.erase id.text }

def addEntry (h : Heap B T H) (entry : PreparedSwapEntry B T H) : Heap B T H :=
  { h with
    segmentDatasources := match entry.datasource with
      | some (key, value) => insertStored h.segmentDatasources key value
      | none => h.segmentDatasources.erase entry.id.text
    segments := insertStored h.segments entry.id (.resident node.platform entry.data) }

def replaceSegments (dropIds : List Text) (add : List (SegmentSwapEntry B T H)) :
    Heap B T H × Except DruidError (List (RemovedEntry B T H)) :=
  match h.checkReplace node dropIds add with
  | .error e => (h, .error e)
  | .ok (next, add) =>
    match removeAll dropIds [] h with
    | (h, .error e) => (h, .error e)
    | (h, .ok removed) => ({ add.foldl (addEntry node) h with currentCacheBytes := next }, .ok removed)

end Heap

/-! ## Any call -/

inductive Call (B T H : Type) where
  | loadSegment (segmentId : String) (segment : SegmentData B T H)
  | loadSegmentWithDatasource (segmentId datasource : String) (segment : SegmentData B T H)
  | setSegmentDatasource (segmentId datasource : String)
  | dropSegment (segmentId : String)
  | replaceSegments (dropIds : List Text) (add : List (SegmentSwapEntry B T H))

/-- What a call leaves, and whether it returned `Ok`. -/
def call (h : Heap B T H) : Call B T H → Heap B T H × Except DruidError Unit
  | .loadSegment segmentId segment => h.loadSegment node segmentId segment
  | .loadSegmentWithDatasource segmentId datasource segment => h.loadSegmentWithDatasource node segmentId datasource segment
  | .setSegmentDatasource segmentId datasource => h.setSegmentDatasource node segmentId datasource
  | .dropSegment segmentId => h.dropSegment node segmentId
  | .replaceSegments dropIds add =>
    let (h, result) := h.replaceSegments node dropIds add
    (h, result.map fun _ => ())

end

end FerroDruid.Historical
