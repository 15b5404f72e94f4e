import FerroDruid.Kafka.Resume
import FerroDruid.Lib.Run
/-!
# Kafka indexing tasks

`KafkaIndexTask` of `ferrodruid-ingest-kafka/src/index_task.rs`, with
`Checkpoint` and the record source it reads. A task consumes its assigned
offset ranges, builds segments, and saves a checkpoint now and then; a task
that is run again under its id resumes from the last one.

One step is one turn of a loop of `run`: entering a partition, a poll, a
record, or the end of the run. What the source, the segment builder and the
checkpoint store answer is input. The JSON parser is a parameter.
-/

namespace FerroDruid.Kafka

open Lib

/-! ## Assignments -/

structure TopicPartition where
  topic : String
  partition : ℤ
  deriving DecidableEq, Repr

/-- The offsets `[start, endOffset)`; without an end the range is open. -/
structure OffsetRange where
  start : ℤ
  endOffset : Option ℤ
  deriving DecidableEq, Repr

namespace OffsetRange

def contains (r : OffsetRange) (offset : ℤ) : Bool :=
  if offset < r.start then false
  else
    match r.endOffset with
    | some e => decide (offset < e)
    | none => true

def isCompleteAt (r : OffsetRange) (nextOffset : ℤ) : Bool :=
  match r.endOffset with
  | some e => decide (nextOffset ≥ e)
  | none => false

end OffsetRange

abbrev PartitionAssignment := HashMap TopicPartition OffsetRange

/-! ## Checkpoints -/

structure Checkpoint where
  nextOffsets : HashMap TopicPartition ℤ

namespace Checkpoint

def empty : Checkpoint := ⟨∅⟩

def nextOffset (c : Checkpoint) (tp : TopicPartition) : Option ℤ := c.nextOffsets.lookup tp

/-- A lower offset never overwrites a higher one. -/
def record (c : Checkpoint) (tp : TopicPartition) (nextOffset : ℤ) : Checkpoint :=
  match c.nextOffsets.lookup tp with
  | some entry => if nextOffset > entry then ⟨c.nextOffsets.insert tp nextOffset⟩ else c
  | none => ⟨c.nextOffsets.insert tp nextOffset⟩

/-- What `record` leaves for a partition is the old entry or the new one. -/
theorem nextOffset_record (c : Checkpoint) (tp q : TopicPartition) (n m : ℤ)
    (h : (c.record tp n).nextOffset q = some m) : c.nextOffset q = some m ∨ q = tp ∧ m = n := by
  have hins : (AList.insert tp n c.nextOffsets).lookup q = some m → c.nextOffset q = some m ∨ q = tp ∧ m = n := by
    intro h
    by_cases hq : q = tp
    · subst hq
      rw [AList.lookup_insert] at h
      exact .inr ⟨rfl, (Option.some.inj h).symm⟩
    · rw [AList.lookup_insert_ne hq] at h
      exact .inl h
  unfold record at h
  split at h
  · split_ifs at h
    · exact hins h
    · exact .inl h
  · exact hins h

end Checkpoint

/-! ## Records -/

structure SourceRecord where
  partition : TopicPartition
  offset : ℤ
  payload : List UInt8
  deriving DecidableEq, Repr

inductive ConsumerError where
  | payloadTooLarge (actual limit : ℕ)
  | payloadTooDeep (limit byteOffset : ℕ)
  deriving DecidableEq, Repr

def maxRecordPayloadBytes : ℕ := 1048576

def maxRecordJsonDepth : ℕ := 32

/-- The walk of `check_record_bounds`: the byte at which the nesting is too
deep, when there is one. Brackets inside a string literal do not count. -/
def tooDeepAt (offset depth : ℕ) (inString escapeNext : Bool) : List UInt8 → Option ℕ
  | [] => none
  | byte :: bytes =>
    if inString then
      if escapeNext then tooDeepAt (offset + 1) depth true false bytes
      else if byte = 0x5c then tooDeepAt (offset + 1) depth true true bytes
      else tooDeepAt (offset + 1) depth (decide (byte ≠ 0x22)) false bytes
    else if byte = 0x22 then tooDeepAt (offset + 1) depth true escapeNext bytes
    else if byte = 0x7b ∨ byte = 0x5b then
      if depth + 1 > maxRecordJsonDepth then some offset else tooDeepAt (offset + 1) (depth + 1) false escapeNext bytes
    else if byte = 0x7d ∨ byte = 0x5d then tooDeepAt (offset + 1) (depth - 1) false escapeNext bytes
    else tooDeepAt (offset + 1) depth false escapeNext bytes

def checkRecordBounds (bytes : List UInt8) : Except ConsumerError Unit :=
  if bytes.length > maxRecordPayloadBytes then .error (.payloadTooLarge bytes.length maxRecordPayloadBytes)
  else
    match tooDeepAt 0 0 false false bytes with
    | some offset => .error (.payloadTooDeep maxRecordJsonDepth offset)
    | none => .ok ()

inductive BadRecord where
  | bounds (e : ConsumerError)
  | parse (message : String)

inductive BadRecordPolicy where
  | fail
  | skip
  deriving DecidableEq, Repr

inductive IndexTaskError where
  | recordBounds (e : ConsumerError)
  | parse (partition : TopicPartition) (offset : ℤ) (message : String)
  | source
  | segmentBuild
  | checkpoint

def mapBad (tp : TopicPartition) (offset : ℤ) : BadRecord → IndexTaskError
  | .bounds e => .recordBounds e
  | .parse message => .parse tp offset message

/-- `DEFAULT_POLL_BATCH`. -/
def defaultPollBatch : ℕ := 256

/-! ## One run -/

/-- What a task is made of. The log is what the source holds, and `fromSlice`
the JSON parser. -/
structure IndexTask (V : Type) where
  maxRowsPerSegment : ℕ
  checkpointEveryRows : ℕ
  assignment : PartitionAssignment
  badRecordPolicy : BadRecordPolicy
  fromSlice : List UInt8 → Except String V
  log : TopicPartition → List SourceRecord
  /-- Offsets ascend in a partition. -/
  ascending : ∀ tp, (log tp).Pairwise (·.offset < ·.offset)

/-- A parsed record, by where it was read. -/
structure ParsedRow (V : Type) where
  partition : TopicPartition
  offset : ℤ
  value : V
  deriving DecidableEq

/-- A segment is the rows it was built from. -/
structure IndexTaskReport (V : Type) where
  rowsConsumed : ℕ
  segments : List (List (ParsedRow V))
  finalOffsets : HashMap TopicPartition ℤ

/-- The partition being consumed, and what is left of the last batch. -/
structure Cursor where
  tp : TopicPartition
  range : OffsetRange
  high : ℤ
  offset : ℤ
  batch : List SourceRecord

/-- The local variables of `run`. -/
structure TaskRun (V : Type) where
  remaining : List (TopicPartition × OffsetRange)
  cursor : Option Cursor
  checkpoint : Checkpoint
  buffer : List (ParsedRow V)
  rowsSinceCheckpoint : ℕ
  report : IndexTaskReport V

/-- The answers of one step. `high` and `polled` are `none` when the source
fails; else the high-water mark, and how many records the poll returns. -/
structure TaskIo where
  high : Option ℤ
  polled : Option ℕ
  built : Bool
  saved : Bool

inductive Outcome (V : Type) where
  /-- The run goes on; the checkpoint was saved when there is one. -/
  | running (run : TaskRun V) (saved : Option Checkpoint)
  | failed (e : IndexTaskError)
  | finished (report : IndexTaskReport V) (saved : Checkpoint)

def Outcome.isFailed {V : Type} : Outcome V → Bool
  | .failed _ => true
  | _ => false

namespace IndexTask

variable {V : Type} (task : IndexTask V)

def parseRecord (payload : List UInt8) : Except BadRecord V :=
  match checkRecordBounds payload with
  | .error e => .error (.bounds e)
  | .ok () =>
    match task.fromSlice payload with
    | .error message => .error (.parse message)
    | .ok value => .ok value

/-- Up to `n` records at or after `offset`, in ascending order. -/
def poll (tp : TopicPartition) (offset : ℤ) (n : ℕ) : List SourceRecord :=
  ((task.log tp).filter (offset ≤ ·.offset)).take (min n defaultPollBatch)

def resumeOffset (tp : TopicPartition) (range : OffsetRange) (cp : Checkpoint) : ℤ :=
  match cp.nextOffset tp with
  | some checkpointed => max checkpointed range.start
  | none => range.start

def start (loaded : Option Checkpoint) : TaskRun V where
  remaining := task.assignment.entries.map fun e => (e.1, e.2)
  cursor := none
  checkpoint := loaded.getD .empty
  buffer := []
  rowsSinceCheckpoint := 0
  report := ⟨0, [], ∅⟩

/-- `none` when the segment cannot be built. -/
def flush (io : TaskIo) (run : TaskRun V) : Option (TaskRun V) :=
  if run.buffer.isEmpty then some run
  else if io.built then
    some { run with buffer := [], report := { run.report with segments := run.report.segments ++ [run.buffer] } }
  else none

/-- After a record: flush a full buffer, then save a checkpoint that is due. -/
def settleRecord (io : TaskIo) (run : TaskRun V) : Outcome V :=
  match if run.buffer.length ≥ task.maxRowsPerSegment then flush io run else some run with
  | none => .failed .segmentBuild
  | some run =>
    if task.checkpointEveryRows > 0 ∧ run.rowsSinceCheckpoint ≥ task.checkpointEveryRows then
      if io.saved then .running { run with rowsSinceCheckpoint := 0 } (some run.checkpoint) else .failed .checkpoint
    else .running run none

def push (run : TaskRun V) (row : ParsedRow V) : TaskRun V :=
  { run with
    buffer := run.buffer ++ [row]
    rowsSinceCheckpoint := run.rowsSinceCheckpoint + 1
    report := { run.report with rowsConsumed := run.report.rowsConsumed + 1 } }

/-- The next offset to consume is one past this record. -/
def advancePast (run : TaskRun V) (c : Cursor) (rec : SourceRecord) (rest : List SourceRecord) : TaskRun V :=
  { run with
    cursor := some { c with offset := rec.offset + 1, batch := rest }
    checkpoint := run.checkpoint.record c.tp (rec.offset + 1) }

/-- The next record of the batch. -/
def consume (io : TaskIo) (run : TaskRun V) (c : Cursor) (rec : SourceRecord) (rest : List SourceRecord) : Outcome V :=
  if rec.offset < c.range.start then
    .running { run with cursor := some { c with offset := rec.offset + 1, batch := rest } } none
  else if c.range.contains rec.offset = false then
    match c.range.endOffset with
    | some e => .running { run with cursor := none, checkpoint := run.checkpoint.record c.tp (max c.offset e) } none
    | none => .running { run with cursor := none } none
  else
    match task.parseRecord rec.payload with
    | .ok value => task.settleRecord io (advancePast (push run ⟨c.tp, rec.offset, value⟩) c rec rest)
    | .error bad =>
      match task.badRecordPolicy with
      | .fail => .failed (mapBad c.tp rec.offset bad)
      | .skip => task.settleRecord io (advancePast run c rec rest)

/-- The end of the run: the last segment and the last checkpoint. -/
def finish (io : TaskIo) (run : TaskRun V) : Outcome V :=
  match flush io run with
  | none => .failed .segmentBuild
  | some run =>
    if io.saved then .finished { run.report with finalOffsets := run.checkpoint.nextOffsets } run.checkpoint
    else .failed .checkpoint

def advance (io : TaskIo) (run : TaskRun V) : Outcome V :=
  match run.cursor with
  | some c =>
    match c.batch with
    | rec :: rest => task.consume io run c rec rest
    | [] =>
      if c.range.isCompleteAt c.offset = true ∨ c.offset ≥ c.high then .running { run with cursor := none } none
      else
        match io.polled with
        | none => .failed .source
        | some n =>
          if (task.poll c.tp c.offset n).isEmpty then .running { run with cursor := none } none
          else .running { run with cursor := some { c with batch := task.poll c.tp c.offset n } } none
  | none =>
    match run.remaining with
    | (tp, range) :: rest =>
      match io.high with
      | none => .failed .source
      | some high =>
        .running
          { run with
            remaining := rest, cursor := some ⟨tp, range, high, resumeOffset tp range run.checkpoint, []⟩ } none
    | [] => finish io run

end IndexTask

/-! ## Runs under one task id -/

/-- The store's checkpoint, the run in progress, and what there was so far:
every checkpoint saved and every report returned. -/
structure TaskHistory (V : Type) where
  stored : Option Checkpoint
  running : Option (TaskRun V)
  saved : List Checkpoint
  returned : List (IndexTaskReport V)

def TaskHistory.empty {V : Type} : TaskHistory V := ⟨none, none, [], []⟩

inductive TaskInput where
  /-- `run` is called; whether the checkpoint could be loaded. -/
  | run (loaded : Bool)
  | next (io : TaskIo)

namespace IndexTask

variable {V : Type} (task : IndexTask V)

def step (s : TaskHistory V) : TaskInput → TaskHistory V
  | .run loaded =>
    match s.running with
    | some _ => s
    | none => if loaded then { s with running := some (task.start s.stored) } else s
  | .next io =>
    match s.running with
    | none => s
    | some run =>
      match task.advance io run with
      | .running run' none => { s with running := some run' }
      | .running run' (some cp) => { s with running := some run', stored := some cp, saved := s.saved ++ [cp] }
      | .failed _ => { s with running := none }
      | .finished report cp =>
        { s with
          running := none, stored := some cp, saved := s.saved ++ [cp], returned := s.returned ++ [report] }

end IndexTask

end FerroDruid.Kafka
