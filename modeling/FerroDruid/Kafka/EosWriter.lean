import FerroDruid.Kafka.IndexTask
import FerroDruid.Lib.Files
/-!
# The exactly-once segment writer

`EosSegmentWriter` of `ferrodruid-ingest-kafka/src/eos_writer.rs`, with the
staging that `SmooshWriter::write_to_dir` of
`ferrodruid-segment/src/writer.rs` does for it, over the file system of
`Lib/Files`. A publish is a script of file operations that may stop between any
two of them, by a crash or an error.

The segment encoder and the JSON of the sidecar are parameters (`EosCodec`).
-/

namespace FerroDruid.Kafka

open Lib

/-! ## Paths -/

/-- One component after another, with `..` taken textually; the parent of the
root is the root. -/
def walk (p : Path) : List String → Path
  | [] => p
  | c :: cs => walk (if c = "" ∨ c = "." then p else if c = ".." then p.dropLast else p ++ [c]) cs

/-- `Path::join`: an absolute path replaces the one it is joined to. -/
def joinPath (p : Path) (s : String) : Path :=
  walk (if s.toList.head? = some '/' then [] else p) ((s.toList.splitOn '/').map String.ofList)

/-- The part is passed over by `walk`. -/
def isBlank (c : String) : Bool := c = "" || c = "."

/-- The one component of a relative path that names a direct child. -/
def childName (s : String) : Option String :=
  if s.toList.head? = some '/' then none
  else
    match ((s.toList.splitOn '/').map String.ofList).filter (fun c => !isBlank c) with
    | [c] => if c = ".." then none else some c
    | _ => none

theorem walk_filter (p : Path) (cs : List String) : walk p (cs.filter fun c => !isBlank c) = walk p cs := by
  induction cs generalizing p with
  | nil => rfl
  | cons c cs ih =>
    by_cases hc : c = "" ∨ c = "."
    · have hb : isBlank c = true := by simpa [isBlank] using hc
      rw [List.filter_cons_of_neg (by simp [hb]), ih]
      simp only [walk]
      rw [if_pos hc]
    · have hb : isBlank c = false := by simpa [isBlank] using hc
      rw [List.filter_cons_of_pos (by simp [hb])]
      exact ih _

theorem joinPath_child {s name : String} (h : childName s = some name) (p : Path) : joinPath p s = p ++ [name] := by
  unfold childName at h
  split_ifs at h with hhead
  split at h
  · rename_i hparts
    split_ifs at h with hdots
    cases h
    have hblank : isBlank name = false := by
      have hc : name ∈ List.filter (fun c => !isBlank c) ((s.toList.splitOn '/').map String.ofList) := hparts ▸ List.mem_cons_self
      simpa using (List.mem_filter.1 hc).2
    have hc : ¬ (name = "" ∨ name = ".") := by simpa [isBlank] using hblank
    unfold joinPath
    rw [if_neg hhead, ← walk_filter, hparts]
    simp only [walk]
    rw [if_neg hc, if_neg hdots]
  · cases h

/-! ## Batches and sidecars -/

/-- Rows, and the offsets they were read from. -/
structure PendingBatch (V : Type) where
  rows : List V
  spans : HashMap TopicPartition OffsetSpan
  deriving DecidableEq

structure OffsetSidecar where
  taskId : String
  spans : List (TopicPartition × OffsetSpan)
  deriving DecidableEq

structure PublishedSegment where
  dir : Path
  taskId : String
  spans : HashMap TopicPartition OffsetSpan

/-- The bytes a segment and a sidecar are written as. -/
structure EosCodec (V : Type) where
  /-- `meta.smoosh` and `00000.smoosh` of the segment the rows make; `none` when
  it cannot be built. -/
  segment : List V → Option (List UInt8 × List UInt8)
  toJson : OffsetSidecar → List UInt8
  fromJson : List UInt8 → Option OffsetSidecar
  fromJson_toJson : ∀ s, fromJson (toJson s) = some s

variable {V : Type}

def PendingBatch.sidecar (batch : PendingBatch V) (taskId : String) : OffsetSidecar :=
  ⟨taskId, batch.spans.entries.map fun e => (e.1, e.2)⟩

/-! ## The writer -/

/-- What a publish meets: the unique suffixes of its temporary names, what its
removals leave behind, and after how many operations it stops. -/
structure PublishIo where
  dirSuffix : String
  chunkSuffix : String
  metaSuffix : String
  keepPending : Path → Bool
  keepStaging : Path → Bool
  keepRebuilt : Path → Bool
  stop : Option ℕ

/-- Nothing goes wrong. -/
def PublishIo.smooth : PublishIo := ⟨"1.0.1", "1.1.1", "1.2.1", fun _ => false, fun _ => false, fun _ => false, none⟩

namespace EosWriter

def pendingRoot (base : Path) : Path := base ++ ["pending"]

def publishedRoot (base : Path) : Path := base ++ ["published"]

/-- `<name>.tmp.<suffix>` beside `p`. -/
def sibling (p : Path) (suffix : String) : Path := p.dropLast ++ [p.getLastD "" ++ ".tmp." ++ suffix]

/-- Write a temporary file, then rename it into place. -/
def durableWrite (p : Path) (bytes : List UInt8) (suffix : String) : List FileOp :=
  [Files.createFile (sibling p suffix), Files.write (sibling p suffix) bytes, Files.rename (sibling p suffix) p]

def chunkFile (dir : Path) : Path := dir ++ ["00000.smoosh"]

def metaFile (dir : Path) : Path := dir ++ ["meta.smoosh"]

def sidecarFile (dir : Path) : Path := dir ++ ["offsets.json"]

/-- Stage the archive beside `dir`, then rename it to `dir`. A directory that is
not empty is not overwritten. -/
def writeToDir (dir : Path) (metaBytes chunk : List UInt8) (io : PublishIo) : List FileOp :=
  let tmp := sibling dir io.dirSuffix
  [Files.removeDirAll tmp io.keepStaging, Files.createDirAll tmp] ++
    durableWrite (chunkFile tmp) chunk io.chunkSuffix ++ durableWrite (metaFile tmp) metaBytes io.metaSuffix ++
    [Files.removeEmptyDir dir, Files.rename tmp dir]

/-- Everything before the segment becomes visible. -/
def stageOps (dir : Path) (metaBytes chunk json : List UInt8) (io : PublishIo) : List FileOp :=
  [Files.removeDirAll dir io.keepPending, Files.createDirAll dir] ++ writeToDir dir metaBytes chunk io ++
    [Files.createFile (sidecarFile dir), Files.write (sidecarFile dir) json]

/-- The publish proper: an id that is already there is taken for a retry. -/
def showOp (dir target : Path) (io : PublishIo) : FileOp := fun fs =>
  if fs.exists? target then Files.removeDirAll dir io.keepRebuilt fs else Files.rename dir target fs

/-- One call of `publish`. -/
structure Call (V : Type) where
  taskId : String
  segmentId : String
  batch : PendingBatch V
  deriving DecidableEq

def target (base : Path) (c : Call V) : Path := joinPath (publishedRoot base) c.segmentId

/-- The script of a call; `none` when the batch is empty or the segment cannot
be built. -/
def publishOps (codec : EosCodec V) (base : Path) (c : Call V) (io : PublishIo) : Option (List FileOp) :=
  if c.batch.rows.isEmpty then none
  else
    match codec.segment c.batch.rows with
    | none => none
    | some (metaBytes, chunk) =>
      let dir := joinPath (pendingRoot base) c.segmentId
      some (stageOps dir metaBytes chunk (codec.toJson (c.batch.sidecar c.taskId)) io ++ [showOp dir (target base c) io])

/-- The files after a call, and whether it returned `Ok`. -/
def publish (codec : EosCodec V) (base : Path) (c : Call V) (io : PublishIo) (fs : Files) : Files × Bool :=
  match publishOps codec base c io with
  | none => (fs, false)
  | some ops =>
    match io.stop with
    | none => Files.run ops fs
    | some k => ((Files.run (ops.take k) fs).1, false)

/-- `EosSegmentWriter::new`. -/
def newOps (base : Path) (keep : Path → Bool) : List FileOp :=
  [Files.createDirAll (pendingRoot base), Files.createDirAll (publishedRoot base), Files.sweep (pendingRoot base) keep]

def new (base : Path) (keep : Path → Bool) (stop : Option ℕ) (fs : Files) : Files :=
  match stop with
  | none => (Files.run (newOps base keep) fs).1
  | some k => (Files.run ((newOps base keep).take k) fs).1

/-- One entry of the published directory: a directory with a readable sidecar. -/
def published? (codec : EosCodec V) (fs : Files) (dir : Path) : Option PublishedSegment :=
  match fs.node dir, fs.node (sidecarFile dir) with
  | some .dir, some (.file bytes) =>
    (codec.fromJson bytes).map fun s => ⟨dir, s.taskId, s.spans.foldl (fun m e => m.insert e.1 e.2) ∅⟩
  | _, _ => none

def listPublished (codec : EosCodec V) (base : Path) (fs : Files) : List PublishedSegment :=
  (fs.readDir (publishedRoot base)).filterMap (published? codec fs)

/-! ## Sequences of steps on one directory -/

/-- The files, every call made so far, those that returned `Ok`, and which call
put each published directory there. -/
structure State (V : Type) where
  files : Files
  calls : List (Call V)
  acked : List (Call V)
  placed : Path → Option (Call V)

inductive Input (V : Type) where
  | new (keep : Path → Bool) (stop : Option ℕ)
  | publish (call : Call V) (io : PublishIo)

def step (codec : EosCodec V) (base : Path) (s : State V) : Input V → State V
  | .new keep stop => { s with files := new base keep stop s.files }
  | .publish c io =>
    { files := (publish codec base c io s.files).1
      calls := s.calls ++ [c]
      acked := if (publish codec base c io s.files).2 then s.acked ++ [c] else s.acked
      placed :=
        if s.files.exists? (target base c) = false ∧ (publish codec base c io s.files).1.exists? (target base c) = true then
          Function.update s.placed (target base c) (some c)
        else s.placed }

end EosWriter

end FerroDruid.Kafka
