import Mathlib.Logic.Function.Basic
import FerroDruid.Kafka.Gate
import FerroDruid.Lib.Run
/-!
# One consumer session

`run_streaming_loop` of `ferrodruid-ingest-kafka/src/streaming.rs` as a step
function: the join drive of `apply_resume_seek`, then the arms of the poll
loop. The group has this one member, so the committed offset moves only when a
commit of the session reaches the coordinator.

What Kafka does is input too: records are produced, retention drops the oldest,
partitions are revoked and assigned, a commit in flight lands or is lost. A
session's history (first consumed offsets, published rows, dead letters,
commits) is kept beside the state; no transition reads it.
-/

namespace FerroDruid.Kafka

open Lib

/-! ## The broker -/

/-- The retained part of a partition's log. An offset without a record is a gap
(an aborted transaction, a control batch, compaction): it is never delivered. -/
structure PartitionLog where
  low : ℤ
  high : ℤ
  records : List ℤ
  low_le : low ≤ high
  sorted : records.Pairwise (· < ·)
  inRange : ∀ r ∈ records, low ≤ r ∧ r < high
  bounded : high ≤ i64Max + 1

namespace PartitionLog

def empty : PartitionLog := ⟨0, 0, [], by decide, by simp, by simp, by decide⟩

/-- A record is produced, after `gap` offsets that hold none. -/
def append (l : PartitionLog) (gap : ℕ) : PartitionLog :=
  if h : l.high + gap ≤ i64Max then
    { low := l.low
      high := l.high + gap + 1
      records := l.records ++ [l.high + gap]
      low_le := by have := l.low_le; omega
      sorted := by
        refine List.pairwise_append.2 ⟨l.sorted, List.pairwise_singleton _ _, ?_⟩
        intro a ha b hb
        have := (l.inRange a ha).2
        rw [List.mem_singleton] at hb
        omega
      inRange := by
        intro r hr
        have := l.low_le
        rcases List.mem_append.1 hr with hr | hr
        · have := l.inRange r hr
          omega
        · rw [List.mem_singleton] at hr
          omega
      bounded := by omega }
  else l

/-- Retention moves the low watermark up. -/
def expire (l : PartitionLog) (low : ℤ) : PartitionLog :=
  if h : l.low ≤ low ∧ low ≤ l.high then
    { low := low
      high := l.high
      records := l.records.filter (low ≤ ·)
      low_le := h.2
      sorted := l.sorted.filter _
      inRange := by
        intro r hr
        rw [List.mem_filter, decide_eq_true_eq] at hr
        exact ⟨hr.2, (l.inRange r hr.1).2⟩
      bounded := l.bounded }
  else l

/-- The record a fetch at `position` returns. -/
def nextFrom (l : PartitionLog) (position : ℤ) : Option ℤ := l.records.find? (position ≤ ·)

end PartitionLog

structure Broker where
  logs : Partition → PartitionLog
  /-- The group's committed offsets, as the coordinator has them. -/
  committed : HashMap Partition ℤ
  /-- Commits sent and not yet at the coordinator, oldest first. -/
  inFlight : List (HashMap Partition ℤ)
  /-- The assigned partitions, each with its fetch position. -/
  positions : HashMap Partition ℤ

namespace Broker

/-- Where an assigned partition starts: at its committed offset when the log
still has it, else where `auto.offset.reset` says. -/
def startPosition (b : Broker) (useEarliestOffset : Bool) (p : Partition) : ℤ :=
  let log := b.logs p
  let reset := if useEarliestOffset then log.low else log.high
  match b.committed.lookup p with
  | some c => if log.low ≤ c ∧ c ≤ log.high then c else reset
  | none => reset

def assign (b : Broker) (useEarliestOffset : Bool) (ps : List Partition) : Broker :=
  { b with
    positions := ps.foldl (fun m p => m.insert p (b.startPosition useEarliestOffset p)) b.positions }

def revoke (b : Broker) (ps : List Partition) : Broker :=
  { b with positions := ps.foldl (fun m p => m.erase p) b.positions }

/-- The oldest commit in flight reaches the coordinator, or is lost. -/
def settleCommit (b : Broker) (landed : Bool) : Broker :=
  match b.inFlight with
  | [] => b
  | offsets :: rest =>
    { b with
      inFlight := rest
      committed :=
        if landed then offsets.entries.foldl (fun m e => m.insert e.1 e.2) b.committed else b.committed }

end Broker

/-! ## The session -/

/-- The answers of the consumer, the ingester and the sink during one step;
`true` is success. -/
structure Io where
  assignment : Bool
  committed : Partition → Bool
  watermarks : Partition → Bool
  seek : Partition → Bool
  /-- The committed-offset fetch after a failed seek. -/
  recheck : Partition → Bool
  pause : Partition → Bool
  resume : Partition → Bool
  ingested : Bool
  sunk : Bool
  /-- The live cluster identity is not the one resolved at the start. -/
  drifted : Bool

/-- Every call succeeds. -/
def Io.success : Io :=
  ⟨true, fun _ => true, fun _ => true, fun _ => true, fun _ => true, fun _ => true, fun _ => true, true, true, false⟩

structure History where
  first : HashMap Partition ℤ
  published : List Row
  /-- Records delivered and consumed without a row. -/
  deadLettered : List Row
  commits : List (Partition × ℤ)

inductive Phase where
  /-- The join drive; the earliest record discarded on each free partition. -/
  | joining (discarded : HashMap Partition ℤ)
  | looping
  | stopped

structure Session where
  commitsOffsets : Bool
  useEarliestOffset : Bool
  phase : Phase
  frontier : ResumeFrontier
  gate : ResumeSeekGate
  contiguous : ContiguousFrontier
  buffer : StreamingBuffer
  notices : RebalanceEvents
  broker : Broker
  history : History

namespace Session

/-- A session before its first poll. Without a durable frontier there is no
join drive. -/
def start (commitsOffsets useEarliestOffset : Bool) (maxRows : ℕ) (frontier : ResumeFrontier)
    (logs : Partition → PartitionLog) (committed : HashMap Partition ℤ) : Session where
  commitsOffsets := commitsOffsets
  useEarliestOffset := useEarliestOffset
  phase := if frontier.partitions.keys.isEmpty && !frontier.topicRecreated then .looping else .joining ∅
  frontier := frontier
  gate := frontier.partitions.keys.foldl ResumeSeekGate.requireTarget .new
  contiguous := .new
  buffer := .fromConfig maxRows
  notices := .empty
  broker := ⟨logs, committed, [], ∅⟩
  history := ⟨∅, [], [], []⟩

/-! ## Activation -/

/-- `fetch_committed_offset`: `none` when the fetch failed. -/
def fetchCommittedOffset (s : Session) (fetched : Bool) (p : Partition) : Option (Option ℤ) :=
  if fetched then some (s.broker.committed.lookup p) else none

def pausePartition (s : Session) (io : Io) (p : Partition) : Session :=
  if io.pause p then { s with gate := s.gate.notePaused p } else s

/-- Resume first, then activate; a failed resume leaves the gate shut. -/
def resumeAndActivate (s : Session) (io : Io) (p : Partition) : Session :=
  if p ∈ s.gate.paused then
    if io.resume p then { s with gate := (s.gate.noteUnpaused p).markActive p } else s
  else { s with gate := s.gate.markActive p }

/-- The partition's committed offset names a dead numbering. -/
def committedUntrusted (s : Session) (p : Partition) : Bool :=
  (match s.frontier.partitions.lookup p with
    | some r => r.recreated
    | none => false) ||
  decide (p ∈ s.gate.offsetSpaceReset)

def commitOffsets (s : Session) (offsets : HashMap Partition ℤ) : Session :=
  if offsets.entries.isEmpty then s
  else
    { s with
      broker := { s.broker with inFlight := s.broker.inFlight ++ [offsets] }
      history := { s.history with commits := s.history.commits ++ offsets.entries.map fun e => (e.1, e.2) } }

/-- The pending target, resolved if it is still unknown. `none` is the source's
`continue`. -/
def resolveTarget (s : Session) (io : Io) (p : Partition) : Session × Option ℤ :=
  match s.gate.state p with
  | .active => (s, none)
  | .needsSeek target => (s, some target)
  | .needsRestore resumeFloor =>
    if s.committedUntrusted p then
      let target := restoreTarget true none resumeFloor
      ({ s with gate := s.gate.setTarget p target }, some target)
    else
      match s.fetchCommittedOffset (io.committed p) p with
      | some committed =>
        let target := restoreTarget false committed resumeFloor
        ({ s with gate := s.gate.setTarget p target }, some target)
      | none => (s.pausePartition io p, none)
  | .needsTarget =>
    match s.frontier.partitions.lookup p with
    | none => (s.resumeAndActivate io p, none)
    | some resume =>
      if resume.recreated then
        let target := resumeOffset none resume
        ({ s with gate := (s.gate.armRecreationFloor p).setTarget p target }, some target)
      else if p ∈ s.gate.offsetSpaceReset then
        let target := resumeOffset none resume
        ({ s with gate := (s.gate.armResetFloor p).setTarget p target }, some target)
      else
        match s.fetchCommittedOffset (io.committed p) p with
        | some committed =>
          let target := resumeOffset committed resume
          ({ s with gate := s.gate.setTarget p target }, some target)
        | none => (s.pausePartition io p, none)

/-- The recreation evidence the pending seek is derived from, when it is a
recreation-floor seek. -/
def recreation (s : Session) (p : Partition) : Option PartitionResume :=
  if p ∈ s.gate.recreationFloor then s.frontier.partitions.lookup p else none

def resetFloorArmed (s : Session) (p : Partition) : Bool :=
  (s.recreation p).isNone && decide (p ∈ s.gate.resetFloor)

/-- `clamped_seek_target`, when the watermarks could be fetched. -/
def clampedSeekTarget (s : Session) (p : Partition) (target : ℤ) : ℤ × Bool :=
  resolveSeekTarget (s.recreation p) (s.resetFloorArmed p) target (s.broker.logs p).low (s.broker.logs p).high

/-- The gate waits for a seek to another offset. -/
def seeksElsewhere (s : Session) (p : Partition) (target : ℤ) : Bool :=
  match s.gate.state p with
  | .needsSeek t => decide (t ≠ target)
  | _ => false

/-- A seek that moved the target re-bases the tracker and purges the span. -/
def rebased (s : Session) (p : Partition) (target : ℤ) : Session :=
  let (contiguous, buffer) := rebaseAfterClampedSeek s.contiguous s.buffer p target
  { s with contiguous := contiguous, buffer := buffer, gate := s.gate.setTarget p target }

/-- The dead generation's committed offset is overwritten once the recreation
floor seek has landed. -/
def overwriteCommitted (s : Session) (p : Partition) (target : ℤ) : Session :=
  let disarmed := { s with gate := s.gate.disarmRecreationFloor p }
  if p ∈ s.gate.recreationFloor then disarmed.commitOffsets (AList.insert p target ∅) else disarmed

def moveTo (s : Session) (p : Partition) (position : ℤ) : Session :=
  { s with broker := { s.broker with positions := s.broker.positions.insert p position } }

/-- The `Ok` arm of the seek. -/
def seekLanded (s : Session) (io : Io) (p : Partition) (target : ℤ) (resetFloor : Bool) : Session :=
  let s := s.moveTo p target
  let s := if resetFloor || s.seeksElsewhere p target then s.rebased p target else s
  (s.overwriteCommitted p target).resumeAndActivate io p

/-- The `Err` arm: harmless only when the fetch position is the committed
offset and the target is both. -/
def seekFailed (s : Session) (io : Io) (p : Partition) (target : ℤ) : Session :=
  match s.fetchCommittedOffset (io.recheck p) p with
  | some committed =>
    if s.gate.mayNoopFailedSeek p committed target then s.resumeAndActivate io p else s.pausePartition io p
  | none => s.pausePartition io p

/-- A log that ends below the target was reset; the memory stays, and every
retry of this seek is floored. -/
def noteShrunk (s : Session) (p : Partition) (shrank : Bool) : Session :=
  if shrank && decide (p ∉ s.gate.offsetSpaceReset) then
    { s with gate := (s.gate.noteOffsetSpaceReset p).armResetFloor p }
  else s

def seekTo (s : Session) (io : Io) (p : Partition) (target : ℤ) : Session :=
  if io.watermarks p then
    let resetFloor := s.resetFloorArmed p
    let validated := s.clampedSeekTarget p target
    let s := s.noteShrunk p validated.2
    if io.seek p then s.seekLanded io p validated.1 resetFloor else s.seekFailed io p validated.1
  else s.pausePartition io p

/-- One pending partition of the activation pass. -/
def activate (io : Io) (s : Session) (p : Partition) : Session :=
  match s.resolveTarget io p with
  | (s', some target) => s'.seekTo io p target
  | (s', none) => s'

/-- The partitions an activation pass visits. -/
def pendingAssigned (s : Session) (io : Io) : List Partition :=
  if io.assignment then s.gate.pending.filter (· ∈ s.broker.positions) else []

/-- `try_activate_pending_blocking`. With the gate clear nothing is pending. -/
def tryActivatePending (s : Session) (io : Io) : Session :=
  if s.gate.isClear then s else (s.pendingAssigned io).foldl (activate io) s

/-! ## The poll loop -/

/-- `drain_rebalance_and_rearm`. -/
def drainRebalanceAndRearm (s : Session) : Session :=
  if s.notices.isEmpty then s
  else
    let frontier := s.frontier.synthesizeRecreated s.notices.assigned
    { s with
      notices := .empty
      frontier := frontier
      gate := rearmGateAfterRebalance s.gate frontier.partitions (safeResumeFrontier s.contiguous s.buffer) s.notices }

/-- Roll and publish; the spans of the segment when there was one. -/
def publishRolled (s : Session) (io : Io) : Session × Except Unit (Option PartitionOffsets) :=
  match s.buffer.publishRolled io.ingested io.sunk with
  | (b, .ok (some (rows, spans))) =>
    ({ s with buffer := b, history := { s.history with published := s.history.published ++ rows } }, .ok (some spans))
  | (b, .ok none) => ({ s with buffer := b }, .ok none)
  | (b, .error e) => ({ s with buffer := b }, .error e)

def commitContiguous (s : Session) (spans : PartitionOffsets) : Session :=
  if s.commitsOffsets then
    let (contiguous, committable) := s.contiguous.recordDurable spans
    { s with contiguous := contiguous }.commitOffsets committable
  else s

def reseekActiveAfterPublishFailure (s : Session) (io : Io) : Session :=
  let (gate, targets) := armPublishFailureReseek s.gate s.contiguous
  if targets.isEmpty then s else { s with gate := gate }.tryActivatePending io

def flushAndCommitMidStream (s : Session) (io : Io) : Session :=
  match s.publishRolled io with
  | (s', .ok (some spans)) => s'.commitContiguous spans
  | (s', .ok none) => s'
  | (s', .error _) => s'.reseekActiveAfterPublishFailure io

def stop (s : Session) : Session := { s with phase := .stopped }

/-- The flush-timer arm. A drifted identity stops the loop and discards the
buffer. -/
def flushTick (s : Session) (io : Io) : Session :=
  if !s.buffer.isEmpty && io.drifted then s.stop else s.flushAndCommitMidStream io

/-- The seek-retry arm. -/
def retryTick (s : Session) (io : Io) : Session := s.drainRebalanceAndRearm.tryActivatePending io

/-- The final drain, on shutdown and on a fatal consume error. -/
def shutdown (s : Session) (io : Io) : Session :=
  if !s.buffer.isEmpty && io.drifted then s.stop
  else
    match s.publishRolled io with
    | (s', .ok (some spans)) => (s'.commitContiguous spans).stop
    | (s', _) => s'.stop

/-- `record_offset` and `note_consumed`, for a record the gate lets through. -/
def recordConsumed (s : Session) (p : Partition) (offset : ℤ) : Session :=
  { s with
    buffer := s.buffer.recordOffset p offset
    contiguous := s.contiguous.noteConsumed p offset
    history :=
      { s.history with first := if p ∈ s.history.first then s.history.first else s.history.first.insert p offset } }

def deadLetter (s : Session) (p : Partition) (offset : ℤ) : Session :=
  { s with history := { s.history with deadLettered := s.history.deadLettered ++ [⟨p, offset⟩] } }

/-- Push the payload, and whether the buffer is full. A record without a
payload is consumed like one that does not parse. -/
def pushRecord (s : Session) (p : Partition) (offset : ℤ) (payload : Option Payload) : Session × Bool :=
  match payload with
  | none => (s.deadLetter p offset, false)
  | some payload =>
    match s.buffer.pushPayload p offset payload with
    | (b, some full) => ({ s with buffer := b }, full)
    | (_, none) => (s.deadLetter p offset, false)

/-- The `recv` arm, for the record at `offset`. -/
def received (s : Session) (io : Io) (p : Partition) (offset : ℤ) (payload : Option Payload) : Session :=
  let s := s.drainRebalanceAndRearm
  match s.gate.recordDelivered p with
  | (gate, false) => { s with gate := gate }.moveTo p (offset + 1)
  | (_, true) =>
    match ((s.moveTo p (offset + 1)).recordConsumed p offset).pushRecord p offset payload with
    | (s', false) => s'
    | (s', true) => if io.drifted then s'.stop else s'.flushAndCommitMidStream io

/-- A record during the join drive. -/
def discarded (s : Session) (earliest : HashMap Partition ℤ) (p : Partition) (offset : ℤ) : Session :=
  let s := s.moveTo p (offset + 1)
  if p ∈ s.frontier.partitions then { s with gate := (s.gate.recordDelivered p).1 }
  else if s.frontier.topicRecreated then
    { s with
      frontier := s.frontier.synthesizeRecreated [p]
      gate := ((s.gate.requireTarget p).recordDelivered p).1 }
  else
    { s with
      phase := .joining (earliest.insert p (match earliest.lookup p with
        | some e => min e offset
        | none => offset)) }

/-- The end of the join drive: rewind what was discarded, re-arm for the
rebalances of the drive, and run the first activation pass if the assignment
settled. -/
def joined (s : Session) (io : Io) (earliest : HashMap Partition ℤ) (assignmentSeen : Bool) : Session :=
  let gate := earliest.entries.foldl (fun g e => (g.setTarget e.1 e.2).taint e.1) s.gate
  let frontier := s.frontier.synthesizeRecreated s.notices.assigned
  let s :=
    { s with
      phase := .looping
      notices := .empty
      frontier := frontier
      gate := rearmGateAfterRebalance gate frontier.partitions ∅ s.notices }
  if assignmentSeen then s.tryActivatePending io else s

end Session

inductive Input where
  | produce (p : Partition) (gap : ℕ)
  | expire (p : Partition) (low : ℤ)
  | settleCommit (landed : Bool)
  | assign (ps : List Partition)
  | revoke (ps : List Partition)
  | rebalanceError
  /-- The poll returns the partition's next record. -/
  | deliver (p : Partition) (payload : Option Payload) (io : Io)
  | joined (io : Io) (assignmentSeen : Bool)
  | flush (io : Io)
  | retry (io : Io)
  | shutdown (io : Io)
  /-- The periodic identity check finds a drift. -/
  | drift

namespace Session

/-- The record the poll returns on `p`, when `p` is assigned and its log has
one. -/
def nextRecord (s : Session) (p : Partition) : Option ℤ :=
  (s.broker.positions.lookup p).bind (s.broker.logs p).nextFrom

def setLog (s : Session) (p : Partition) (log : PartitionLog) : Session :=
  { s with broker := { s.broker with logs := Function.update s.broker.logs p log } }

/-- Retention overtakes the fetch position only where the reset that follows
goes to the earliest record, which is the next one the poll would return. -/
def expireLog (s : Session) (p : Partition) (low : ℤ) : Session :=
  if s.useEarliestOffset || (s.broker.positions.lookup p).all (low ≤ ·) then
    s.setLog p ((s.broker.logs p).expire low)
  else s

def deliver (s : Session) (p : Partition) (payload : Option Payload) (io : Io) : Session :=
  match s.nextRecord p with
  | none => s
  | some offset =>
    match s.phase with
    | .joining earliest => s.discarded earliest p offset
    | .looping => s.received io p offset payload
    | .stopped => s

/-- An arm of the loop runs only while the loop does. -/
def whileLooping (s : Session) (arm : Session → Session) : Session :=
  match s.phase with
  | .looping => arm s
  | _ => s

def step (s : Session) : Input → Session
  | .produce p gap => s.setLog p ((s.broker.logs p).append gap)
  | .expire p low => s.expireLog p low
  | .settleCommit landed => { s with broker := s.broker.settleCommit landed }
  | .assign ps =>
    { s with
      broker := s.broker.assign s.useEarliestOffset ps
      notices := { s.notices with assigned := s.notices.assigned ++ ps } }
  | .revoke ps =>
    { s with
      broker := s.broker.revoke ps
      notices := { s.notices with revoked := s.notices.revoked ++ ps } }
  | .rebalanceError =>
    { s with broker := { s.broker with positions := ∅ }, notices := { s.notices with lostAll := true } }
  | .deliver p payload io => s.deliver p payload io
  | .joined io assignmentSeen =>
    match s.phase with
    | .joining earliest => s.joined io earliest assignmentSeen
    | _ => s
  | .flush io => s.whileLooping (·.flushTick io)
  | .retry io => s.whileLooping (·.retryTick io)
  | .shutdown io => s.whileLooping (·.shutdown io)
  | .drift => s.whileLooping stop

end Session

end FerroDruid.Kafka
