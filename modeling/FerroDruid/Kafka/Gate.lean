import Mathlib.Data.Finset.Basic
import FerroDruid.Kafka.Resume
/-!
# The seek gate, the commit tracker and the buffer

The three state machines the poll loop keeps besides the consumer itself
(`ResumeSeekGate`, `ContiguousFrontier`, `StreamingBuffer`) and the pure
functions that couple them (`safe_resume_frontier`,
`rearm_gate_after_rebalance`, `arm_publish_failure_reseek`,
`rebase_after_clamped_seek`).
-/

namespace FerroDruid.Kafka

open Lib

/-! ## The seek gate -/

inductive SeekGateState where
  | needsTarget
  | needsSeek (target : ℤ)
  | needsRestore (resumeFloor : ℤ)
  | active
  deriving DecidableEq, Repr

structure ResumeSeekGate where
  states : HashMap Partition SeekGateState
  tainted : Finset Partition
  paused : Finset Partition
  recreationFloor : Finset Partition
  offsetSpaceReset : Finset Partition
  resetFloor : Finset Partition

namespace ResumeSeekGate

def new : ResumeSeekGate := ⟨∅, ∅, ∅, ∅, ∅, ∅⟩

/-- Partitions the gate does not know are active. -/
def state (g : ResumeSeekGate) (p : Partition) : SeekGateState := (g.states.lookup p).getD .active

def requireTarget (g : ResumeSeekGate) (p : Partition) : ResumeSeekGate :=
  { g with states := g.states.insert p .needsTarget }

def setTarget (g : ResumeSeekGate) (p : Partition) (target : ℤ) : ResumeSeekGate :=
  { g with states := g.states.insert p (.needsSeek target) }

def setRestore (g : ResumeSeekGate) (p : Partition) (resumeFloor : ℤ) : ResumeSeekGate :=
  { g with states := g.states.insert p (.needsRestore resumeFloor) }

def pending (g : ResumeSeekGate) : List Partition :=
  (g.states.entries.filter fun e => e.2 ≠ .active).map (·.1)

def isClear (g : ResumeSeekGate) : Bool := g.states.entries.all fun e => e.2 = .active

def taint (g : ResumeSeekGate) (p : Partition) : ResumeSeekGate := { g with tainted := insert p g.tainted }

/-- The verdict on a delivered record: `true` is consume it. A record that is
dropped taints its partition. -/
def recordDelivered (g : ResumeSeekGate) (p : Partition) : ResumeSeekGate × Bool :=
  match g.state p with
  | .active => (g, true)
  | _ => (g.taint p, false)

/-- Refused while the partition is paused. The memory of an offset-space reset
outlives the activation. -/
def markActive (g : ResumeSeekGate) (p : Partition) : ResumeSeekGate :=
  if p ∈ g.paused then g
  else
    { g with
      states := g.states.insert p .active
      tainted := g.tainted.erase p
      recreationFloor := g.recreationFloor.erase p
      resetFloor := g.resetFloor.erase p }

def armRecreationFloor (g : ResumeSeekGate) (p : Partition) : ResumeSeekGate :=
  { g with recreationFloor := insert p g.recreationFloor }

def disarmRecreationFloor (g : ResumeSeekGate) (p : Partition) : ResumeSeekGate :=
  { g with recreationFloor := g.recreationFloor.erase p }

def noteOffsetSpaceReset (g : ResumeSeekGate) (p : Partition) : ResumeSeekGate :=
  { g with offsetSpaceReset := insert p g.offsetSpaceReset }

def armResetFloor (g : ResumeSeekGate) (p : Partition) : ResumeSeekGate :=
  { g with resetFloor := insert p g.resetFloor }

def notePaused (g : ResumeSeekGate) (p : Partition) : ResumeSeekGate := { g with paused := insert p g.paused }

def noteUnpaused (g : ResumeSeekGate) (p : Partition) : ResumeSeekGate := { g with paused := g.paused.erase p }

def mayNoopFailedSeek (g : ResumeSeekGate) (p : Partition) (committed : Option ℤ) (target : ℤ) : Bool :=
  resumeSeekFailureIsSafe committed target && decide (p ∉ g.tainted)

variable (g : ResumeSeekGate) (p q : Partition)

theorem state_insert (st : SeekGateState) :
    ((g.states.insert p st).lookup q).getD .active = if q = p then st else g.state q := by
  split_ifs with h
  · subst h
    rw [AList.lookup_insert, Option.getD_some]
  · rw [AList.lookup_insert_ne h, state]

@[simp] theorem state_requireTarget :
    (g.requireTarget p).state q = if q = p then .needsTarget else g.state q := state_insert g p q _

@[simp] theorem state_setTarget (t : ℤ) :
    (g.setTarget p t).state q = if q = p then .needsSeek t else g.state q := state_insert g p q _

@[simp] theorem state_setRestore (f : ℤ) :
    (g.setRestore p f).state q = if q = p then .needsRestore f else g.state q := state_insert g p q _

theorem state_markActive :
    (g.markActive p).state q = if q = p ∧ p ∉ g.paused then .active else g.state q := by
  unfold markActive
  by_cases hp : p ∈ g.paused
  · simp [hp]
  · rw [if_neg hp]
    simp only [hp, not_false_eq_true, and_true]
    exact state_insert g p q .active

theorem state_recordDelivered : (g.recordDelivered p).1.state q = g.state q := by
  unfold recordDelivered
  split <;> rfl

theorem recreationFloor_recordDelivered :
    (g.recordDelivered p).1.recreationFloor = g.recreationFloor := by
  unfold recordDelivered
  split <;> rfl

theorem recordDelivered_eq_true {g : ResumeSeekGate} {p : Partition} (h : (g.recordDelivered p).2 = true) :
    g.state p = .active ∧ (g.recordDelivered p).1 = g := by
  unfold recordDelivered at h ⊢
  cases hs : g.state p <;> simp_all

end ResumeSeekGate

/-! ## Rebalances -/

/-- What the rebalance callbacks recorded since the last drain. -/
structure RebalanceEvents where
  revoked : List Partition
  assigned : List Partition
  lostAll : Bool
  deriving DecidableEq, Repr

namespace RebalanceEvents

def empty : RebalanceEvents := ⟨[], [], false⟩

def isEmpty (e : RebalanceEvents) : Bool := !e.lostAll && e.revoked.isEmpty && e.assigned.isEmpty

/-- The partition is named, or everything is. -/
def Touches (e : RebalanceEvents) (p : Partition) : Prop := e.lostAll = true ∨ p ∈ e.revoked ∨ p ∈ e.assigned

theorem not_touches_of_isEmpty {e : RebalanceEvents} (h : e.isEmpty = true) (p : Partition) : ¬ e.Touches p := by
  simp only [isEmpty, Bool.and_eq_true, Bool.not_eq_true', List.isEmpty_iff] at h
  obtain ⟨⟨hl, hr⟩, ha⟩ := h
  simp [Touches, hl, hr, ha]

end RebalanceEvents

/-- Re-arm one partition a rebalance touched. -/
def rearmPartition (frontier : HashMap Partition PartitionResume) (resumeFloor : HashMap Partition ℤ)
    (events : RebalanceEvents) (gate : ResumeSeekGate) (p : Partition) : ResumeSeekGate :=
  let gate := if events.lostAll || decide (p ∈ events.revoked) then gate.noteUnpaused p else gate
  match resumeFloor.lookup p with
  | some floor => gate.setRestore p floor
  | none => if p ∈ frontier then gate.requireTarget p else gate

/-- The partitions a rebalance touched; a rebalance error touches everything
the session tracks. -/
def affectedPartitions (frontier : HashMap Partition PartitionResume) (resumeFloor : HashMap Partition ℤ)
    (events : RebalanceEvents) : List Partition :=
  (events.revoked ++ events.assigned ++
    if events.lostAll then frontier.keys ++ resumeFloor.keys else []).dedup

def rearmGateAfterRebalance (gate : ResumeSeekGate) (frontier : HashMap Partition PartitionResume)
    (resumeFloor : HashMap Partition ℤ) (events : RebalanceEvents) : ResumeSeekGate :=
  if events.isEmpty then gate
  else (affectedPartitions frontier resumeFloor events).foldl (rearmPartition frontier resumeFloor events) gate

/-! ## The commit tracker -/

/-- Per partition, the next offset to commit. -/
structure ContiguousFrontier where
  next : HashMap Partition ℤ

namespace ContiguousFrontier

def new : ContiguousFrontier := ⟨∅⟩

/-- The first offset seen is the base. -/
def noteConsumed (c : ContiguousFrontier) (p : Partition) (offset : ℤ) : ContiguousFrontier :=
  match c.next.lookup p with
  | some _ => c
  | none => ⟨c.next.insert p offset⟩

def resetBase (c : ContiguousFrontier) (p : Partition) (offset : ℤ) : ContiguousFrontier :=
  ⟨c.next.insert p offset⟩

/-- Fold one published span in. A span above the frontier leaves it pinned. -/
def recordSpan (acc : ContiguousFrontier × HashMap Partition ℤ) (p : Partition) (span : OffsetSpan) :
    ContiguousFrontier × HashMap Partition ℤ :=
  let frontier := (acc.1.next.lookup p).getD span.start
  if span.start ≤ frontier ∧ span.next > frontier then
    (⟨acc.1.next.insert p span.next⟩, acc.2.insert p span.next)
  else (⟨acc.1.next.insert p frontier⟩, acc.2)

/-- The tracker after a published segment, and the offsets now safe to commit. -/
def recordDurable (c : ContiguousFrontier) (spans : PartitionOffsets) : ContiguousFrontier × HashMap Partition ℤ :=
  spans.entries.foldl (fun acc e => recordSpan acc e.1 e.2) (c, ∅)

end ContiguousFrontier

/-! ## The buffer -/

/-- A row, by the record it was read from. -/
structure Row where
  partition : Partition
  offset : ℤ
  deriving DecidableEq, Repr

/-- A record's payload as `push_payload` sees it: how many rows it parses and
validates to, when it does, and its size. -/
structure Payload where
  rows : Option ℕ
  bytes : ℕ
  deriving DecidableEq, Repr

structure StreamingBuffer where
  maxRowsPerSegment : ℕ
  rows : List Row
  bufferedBytes : ℕ
  offsetSpans : PartitionOffsets

/-- `MAX_BUFFERED_BYTES`. -/
def maxBufferedBytes : ℕ := 32 * 1024 * 1024

namespace StreamingBuffer

def fromConfig (maxRows : ℕ) : StreamingBuffer := ⟨max maxRows 1, [], 0, ∅⟩

/-- Extend the partition's span to the record. An offset below its end is a
discontinuity and restarts it; a forward gap is merged. -/
def recordOffset (b : StreamingBuffer) (p : Partition) (offset : ℤ) : StreamingBuffer :=
  let next := saturatingSucc offset
  match b.offsetSpans.lookup p with
  | some span =>
    if offset < span.next then { b with offsetSpans := b.offsetSpans.insert p ⟨offset, next⟩ }
    else { b with offsetSpans := b.offsetSpans.insert p { span with next := next } }
  | none => { b with offsetSpans := b.offsetSpans.insert p ⟨offset, next⟩ }

def purgePartitionSpan (b : StreamingBuffer) (p : Partition) : StreamingBuffer :=
  { b with offsetSpans := b.offsetSpans.erase p }

/-- `none` is the dead-lettered record: a payload that does not parse or
validate, or that holds no row. Else whether the buffer is full. -/
def pushPayload (b : StreamingBuffer) (p : Partition) (offset : ℤ) (payload : Payload) :
    StreamingBuffer × Option Bool :=
  match payload.rows with
  | none | some 0 => (b, none)
  | some (n + 1) =>
    let rows := b.rows ++ List.replicate (n + 1) ⟨p, offset⟩
    let bytes := b.bufferedBytes + payload.bytes
    ({ b with rows := rows, bufferedBytes := bytes },
      some (decide (rows.length ≥ b.maxRowsPerSegment) || decide (bytes ≥ maxBufferedBytes)))

def isEmpty (b : StreamingBuffer) : Bool := b.rows.isEmpty

/-- The buffer after a roll has taken rows and spans. -/
def emptied (b : StreamingBuffer) : StreamingBuffer := { b with rows := [], bufferedBytes := 0, offsetSpans := ∅ }

/-- `none` when there is no row, and the spans stay; else the rows and the
spans, taken out whether or not the segment can be built (`ingested`). -/
def rollWithOffsets (b : StreamingBuffer) (ingested : Bool) :
    StreamingBuffer × Except Unit (Option (List Row × PartitionOffsets)) :=
  if b.rows.isEmpty then (b, .ok none)
  else if ingested then (b.emptied, .ok (some (b.rows, b.offsetSpans)))
  else (b.emptied, .error ())

/-- Roll, then publish through the sink; `sunk` is the sink's answer. -/
def publishRolled (b : StreamingBuffer) (ingested sunk : Bool) :
    StreamingBuffer × Except Unit (Option (List Row × PartitionOffsets)) :=
  match b.rollWithOffsets ingested with
  | (b', .ok (some segment)) => if sunk then (b', .ok (some segment)) else (b', .error ())
  | (b', .ok none) => (b', .ok none)
  | (b', .error e) => (b', .error e)

/-- The three outcomes of a publish: nothing to do, everything out, or
everything dropped. -/
theorem publishRolled_cases (b : StreamingBuffer) (ingested sunk : Bool) :
    b.publishRolled ingested sunk = (b, .ok none) ∨
      b.publishRolled ingested sunk = (b.emptied, .ok (some (b.rows, b.offsetSpans))) ∨
      b.publishRolled ingested sunk = (b.emptied, .error ()) ∧ (!b.isEmpty && !(ingested && sunk)) = true := by
  unfold publishRolled rollWithOffsets isEmpty
  by_cases hr : b.rows.isEmpty
  · simp [hr]
  · cases ingested <;> cases sunk <;> simp [hr]

end StreamingBuffer

/-! ## The couplings -/

/-- A floor, extended by a buffered span. -/
def extendFloor (floor : Option ℤ) (span : OffsetSpan) : ℤ :=
  match floor with
  | some f => max f span.next
  | none => span.next

/-- The durable frontier, extended by what is still buffered. -/
def safeResumeFrontier (contiguous : ContiguousFrontier) (buffer : StreamingBuffer) : HashMap Partition ℤ :=
  buffer.offsetSpans.entries.foldl (fun floor e => floor.insert e.1 (extendFloor (floor.lookup e.1) e.2))
    contiguous.next

/-- Every active tracked partition is sent back to its durable frontier. -/
def armPublishFailureReseek (gate : ResumeSeekGate) (contiguous : ContiguousFrontier) :
    ResumeSeekGate × List (Partition × ℤ) :=
  let targets := (contiguous.next.entries.filter fun e => gate.state e.1 = .active).map fun e => (e.1, e.2)
  (targets.foldl (fun g t => (g.setTarget t.1 t.2).taint t.1) gate, targets)

/-- The tracker and the buffer after a clamped seek. -/
def rebaseAfterClampedSeek (contiguous : ContiguousFrontier) (buffer : StreamingBuffer) (p : Partition)
    (target : ℤ) : ContiguousFrontier × StreamingBuffer :=
  (contiguous.resetBase p target, buffer.purgePartitionSpan p)

end FerroDruid.Kafka
