import FerroDruid.Cluster.Persist
/-!
# `ReplicationEngine`: one node of the replication protocol

Every public operation of `replication.rs` as a function on the engine. An
operation runs to completion; what it reads from outside (the clock, the
timer's random draw, the surroundings of `apply`) is a `StepEnv`. Sets of node
ids are finite sets. Durations and instants count nanoseconds.

A term is a `u64`, and an election adds one to it with wrap-around, as the
release profile does; log indices stay far below 2^64 and are plain numbers.

`submit_with_majority_ack` waits for acknowledgements between its start and
its return, so it is three operations here: `beginSubmit`, `pollSubmit`, which
looks at the tally, and `timeoutSubmit`.
-/

namespace FerroDruid.Cluster

open FerroDruid.Lib

abbrev Instant := Int

def MAX_REPLAY_BATCH : Nat := 1000

def MAX_SNAPSHOT_LOG_INDEX : Nat := 16 * 1024 * 1024

def DEFAULT_SUBMIT_TIMEOUT_MS : Nat := 5000

def MAX_SNAPSHOT_TOTAL_BYTES : Nat := 128 * 1024 * 1024

/-! ## Messages -/

structure SnapshotChunk where
  transfer_id : Nat
  chunk_index : Nat
  total_chunks : Nat
  is_final : Bool
  last_index : Nat
  term : Nat
  total_bytes : Nat
  payload : Bytes
  deriving DecidableEq, Repr

inductive ReplicationMessage where
  | Heartbeat (leader_id : NodeId) (term : Nat)
  | VoteRequest (candidate_id : NodeId) (term : Nat)
  | VoteResponse (voter_id : NodeId) (term : Nat) (granted : Bool)
  | ReplicateCommand (term index : Nat) (command : ClusterCommand)
  | ReplicateAck (follower_id : NodeId) (index : Nat) (success : Bool) (last_log_index_hint : Option Nat)
  | SnapshotRequest (follower_id : NodeId)
  | SnapshotResponse (snapshot : ClusterSnapshot) (last_index term : Nat)
  | Join (node_id : NodeId) (addr : String)
  | RequestPreVote (candidate_id : NodeId) (proposed_term round_id : Nat)
  | RequestPreVoteResponse (voter_id : NodeId) (proposed_term : Nat) (granted : Bool) (round_id : Nat)
  | SnapshotChunk (chunk : SnapshotChunk)
  | SnapshotChunkAck (follower_id : NodeId) (transfer_id last_received_chunk : Nat) (applied : Bool)

inductive ReplicationRole where
  | Leader
  | Follower
  | Candidate
  deriving DecidableEq, Repr

inductive TickAction where
  | Idle
  | BroadcastPreVoteRequest (candidate_id : NodeId) (proposed_term round_id : Nat)
  | BroadcastVoteRequest (candidate_id : NodeId) (term : Nat)
  | BroadcastHeartbeat (leader_id : NodeId) (term : Nat)
  deriving DecidableEq, Repr

structure PreVoteRound where
  proposed_term : Nat
  round_id : Nat
  deriving DecidableEq, Repr

structure MajorityAck where
  ack_count : Nat
  total : Nat
  index : Nat
  term : Nat
  deriving DecidableEq, Repr

inductive SubmitError where
  | NotLeader
  | Timeout (ack_count total timeout_ms : Nat)
  | Apply (error : ClusterError)
  deriving DecidableEq, Repr

/-- A submit that has appended its entry: acknowledged at once, or waiting. -/
inductive Submitted where
  | Acked (ack : MajorityAck)
  | Waiting (index term : Nat)
  deriving DecidableEq, Repr

/-! ## Timers -/

/-- What one operation reads from outside the engine. -/
structure StepEnv where
  now : Instant
  /-- The timer's random number, before it is cut to the spread. -/
  draw : Nat
  apply : ApplyEnv

structure ElectionTimer where
  deadline : Instant
  timeout : Nat
  rng_spread : Nat
  deriving DecidableEq, Repr

namespace ElectionTimer

def reset (env : StepEnv) (t : ElectionTimer) : ElectionTimer :=
  let jitter := if t.rng_spread = 0 then 0 else env.draw % t.rng_spread
  { t with deadline := env.now + t.timeout + jitter }

def new (env : StepEnv) (timeout rng_spread : Nat) : ElectionTimer :=
  reset env { deadline := env.now, timeout, rng_spread }

def isExpired (env : StepEnv) (t : ElectionTimer) : Bool := decide (env.now ≥ t.deadline)

end ElectionTimer

structure HeartbeatTicker where
  last_sent : Instant
  interval : Nat
  deriving DecidableEq, Repr

namespace HeartbeatTicker

/-- The first tick fires. -/
def new (env : StepEnv) (interval : Nat) : HeartbeatTicker :=
  { last_sent := env.now - interval - 1000000, interval }

/-- Instants subtract to zero when the second is later. -/
def shouldSend (env : StepEnv) (t : HeartbeatTicker) : Bool × HeartbeatTicker :=
  if max 0 (env.now - t.last_sent) ≥ t.interval then (true, { t with last_sent := env.now }) else (false, t)

end HeartbeatTicker

/-! ## Snapshot chunks being reassembled -/

structure ChunkBuffer where
  expected : Nat := 0
  highest_contiguous : Option Nat := none
  last_index : Nat := 0
  term : Nat := 0
  total_bytes : Nat := 0
  chunks : HashMap Nat Bytes := ∅

namespace ChunkBuffer

/-- The `while` loop of `record_chunk`; it meets each buffered chunk at most once. -/
def advance (chunks : HashMap Nat Bytes) : Nat → Nat → Option Nat → Option Nat
  | 0, _, high => high
  | fuel + 1, next, high => if next ∈ chunks then advance chunks fuel (next + 1) (some next) else high

def recordChunk (b : ChunkBuffer) (idx : Nat) (payload : Bytes) : ChunkBuffer :=
  let chunks := AList.insert idx payload b.chunks
  let next := match b.highest_contiguous with
    | none => 0
    | some c => c + 1
  { b with chunks, highest_contiguous := advance chunks chunks.entries.length next b.highest_contiguous }

def isComplete (b : ChunkBuffer) : Bool := decide (b.expected > 0 ∧ b.chunks.entries.length = b.expected)

/-- The chunks `i`, `i + 1`, ... of the `n` that are left, joined. -/
def join (chunks : HashMap Nat Bytes) : Nat → Nat → Except ClusterError Bytes
  | _, 0 => .ok []
  | i, n + 1 => match chunks.lookup i with
    | none => .error (.CommandFailed s!"chunked snapshot missing chunk index {i}")
    | some chunk => match join chunks (i + 1) n with
      | .error e => .error e
      | .ok rest => .ok (chunk ++ rest)

def assemble (b : ChunkBuffer) : Except ClusterError Bytes :=
  if ¬ b.isComplete then
    .error (.CommandFailed
      s!"chunked snapshot incomplete: have={b.chunks.entries.length} expected={b.expected}")
  else match join b.chunks 0 b.expected with
    | .error e => .error e
    | .ok out =>
      if out.length ≠ b.total_bytes then
        .error (.CommandFailed s!"chunked snapshot byte mismatch: got {out.length} expected {b.total_bytes}")
      else .ok out

end ChunkBuffer

structure ChunkCursor where
  transfer_id : Option Nat := none
  last_acked : Option Nat := none
  applied : Bool := false
  deriving DecidableEq, Repr

/-! ## The engine -/

inductive ClusterSecurityHint where
  | Psk
  | Mtls
  deriving DecidableEq, Repr

structure ReplicationConfig where
  node_id : NodeId
  peers : List NodeId
  heartbeat_interval_ms : Nat
  election_timeout_ms : Nat
  cluster_security_hint : ClusterSecurityHint
  deriving DecidableEq, Repr

/-- Not in the source: what the node did so far. No operation reads it. -/
structure History where
  /-- The commands given to the state machine, in order. -/
  applied : List ClusterCommand := []
  /-- The candidates voted for, with the term of each vote. -/
  ballots : List (Nat × NodeId) := []
  deriving DecidableEq, Repr

structure ReplicationEngine where
  config : ReplicationConfig
  role : ReplicationRole
  current_term : Nat
  last_index : Nat
  voted_for : Option NodeId
  votes_received : HashMap Nat (Finset NodeId)
  election_term : Option Nat
  cluster_manager : ClusterManager
  command_log : List (Nat × ClusterCommand)
  log_terms : List Nat
  election_timer : ElectionTimer
  heartbeat_ticker : HeartbeatTicker
  next_index : HashMap NodeId Nat
  match_index : HashMap NodeId Nat
  pending_acks : HashMap Nat (Finset NodeId)
  pre_votes_received : HashMap Nat (Finset NodeId)
  pre_vote_in_flight : Option PreVoteRound
  pre_vote_round_id : Nat
  submit_timeout_ms : Nat
  persistent_state : Option PersistentRaftState
  snapshot_rx_buffers : HashMap Nat ChunkBuffer
  snapshot_tx_cursors : HashMap NodeId ChunkCursor
  snapshot_tx_next_id : Nat
  startup_grace_until : Option Instant
  history : History

/-- `u64`'s `+ 1`. -/
def succU64 (n : Nat) : Nat := (n + 1) % 2 ^ 64

/-- `u64::saturating_add(1)`. -/
def saturatingSucc (n : Nat) : Nat := min (n + 1) (2 ^ 64 - 1)

namespace ReplicationEngine

def DEFAULT_ELECTION_JITTER_MS : Nat := 150

def MTLS_ELECTION_TIMEOUT_FLOOR_MS : Nat := 5000

def MTLS_ELECTION_JITTER_DIVISOR : Nat := 4

def MTLS_STARTUP_GRACE_MAX_MS : Nat := 15000

def fromMillis (ms : Nat) : Nat := ms * 1000000

def effectiveElectionParams (configured_ms : Nat) : ClusterSecurityHint → Nat × Nat
  | .Psk => (fromMillis configured_ms, fromMillis DEFAULT_ELECTION_JITTER_MS)
  | .Mtls =>
    let effective := max configured_ms MTLS_ELECTION_TIMEOUT_FLOOR_MS
    (fromMillis effective, fromMillis (effective / MTLS_ELECTION_JITTER_DIVISOR))

def new (env : StepEnv) (config : ReplicationConfig) (cluster_manager : ClusterManager) : ReplicationEngine where
  config := config
  role := .Follower
  current_term := 0
  last_index := 0
  voted_for := none
  votes_received := ∅
  election_term := none
  cluster_manager := cluster_manager
  command_log := []
  log_terms := []
  election_timer :=
    let params := effectiveElectionParams config.election_timeout_ms config.cluster_security_hint
    ElectionTimer.new env params.1 params.2
  heartbeat_ticker := HeartbeatTicker.new env (fromMillis config.heartbeat_interval_ms)
  next_index := ∅
  match_index := ∅
  pending_acks := ∅
  pre_votes_received := ∅
  pre_vote_in_flight := none
  pre_vote_round_id := 0
  submit_timeout_ms := DEFAULT_SUBMIT_TIMEOUT_MS
  persistent_state := none
  snapshot_rx_buffers := ∅
  snapshot_tx_cursors := ∅
  snapshot_tx_next_id := 0
  startup_grace_until := match config.cluster_security_hint with
    | .Mtls => some (env.now + fromMillis MTLS_STARTUP_GRACE_MAX_MS)
    | .Psk => none
  history := {}

variable (deps : Deps)

def isLeader (e : ReplicationEngine) : Bool := decide (e.role = .Leader)

def nodeId (e : ReplicationEngine) : NodeId := e.config.node_id

/-- Peers and the node itself. -/
def total (e : ReplicationEngine) : Nat := e.config.peers.length + 1

def majority (e : ReplicationEngine) : Nat := e.total / 2 + 1

def resetElectionTimer (env : StepEnv) (e : ReplicationEngine) : ReplicationEngine :=
  { e with election_timer := e.election_timer.reset env }

/-- `cluster_manager.apply`. -/
def applyCommand (env : ApplyEnv) (e : ReplicationEngine) (cmd : ClusterCommand) :
    Except ClusterError CommandResult × ReplicationEngine :=
  let (r, m) := apply deps.chrono env e.cluster_manager cmd
  (r, { e with cluster_manager := m, history := { e.history with applied := e.history.applied ++ [cmd] } })

/-! ## Persistence -/

/-- `append_log_entry` on the attached state, if there is one. -/
def persistAppend (e : ReplicationEngine) (index term : Nat) (cmd : ClusterCommand) : ReplicationEngine :=
  { e with persistent_state := e.persistent_state.map fun st => st.appendLogEntry deps index term cmd }

/-- The new entry goes to disk, then to the log, then to the state machine. -/
def appendEntry (env : ApplyEnv) (e : ReplicationEngine) (index term : Nat) (cmd : ClusterCommand) :
    Except ClusterError CommandResult × ReplicationEngine :=
  let persisted := persistAppend deps e index term cmd
  let appended :=
    { persisted with
      last_index := index
      command_log := e.command_log ++ [(index, cmd)]
      log_terms := e.log_terms ++ [term] }
  applyCommand deps env appended cmd

/-- The loop of `attach_persistent_state`; a command the state machine refuses
ends it. -/
def replayEntries (env : Nat → ApplyEnv) (e : ReplicationEngine) :
    List PersistedEntry → Except ClusterError Unit × ReplicationEngine
  | [] => (.ok (), e)
  | entry :: entries =>
    let pushed :=
      { e with
        command_log := e.command_log ++ [(entry.index, entry.command)]
        log_terms := e.log_terms ++ [entry.term]
        last_index := entry.index }
    let r := applyCommand deps (env 0) pushed entry.command
    match r.1 with
    | .error err => (.error err, r.2)
    | .ok _ => replayEntries (fun n => env (n + 1)) r.2 entries

def attachPersistentState (env : Nat → ApplyEnv) (e : ReplicationEngine) (state : PersistentRaftState) :
    Except ClusterError Unit × ReplicationEngine :=
  match state.replay deps with
  | .error err => (.error (.CommandFailed s!"persist replay: {err.text}"), e)
  | .ok (snapshot, entries, raft_meta) =>
    let restored := match snapshot with
      | none => e
      | some s =>
        { e with
          cluster_manager := restore e.cluster_manager s.snapshot
          last_index := s.last_index
          log_terms := List.replicate s.last_index s.term }
    let r := replayEntries deps env restored entries
    match r.1 with
    | .error err => (.error err, r.2)
    | .ok () =>
      (.ok (), { r.2 with
        current_term := max raft_meta.current_term r.2.current_term
        voted_for := raft_meta.voted_for
        last_index := max raft_meta.last_index r.2.last_index
        persistent_state := some state })

/-! ## Submitting and acknowledging -/

/-- `submit_with_majority_ack` up to its first wait. The entry is persisted and
appended before the state machine sees it. -/
def beginSubmit (env : StepEnv) (e : ReplicationEngine) (cmd : ClusterCommand) :
    Except SubmitError Submitted × ReplicationEngine :=
  if ¬ e.isLeader then (.error .NotLeader, e)
  else
    let index := e.last_index + 1
    let term := e.current_term
    let r := appendEntry deps env.apply e index term cmd
    match r.1 with
    | .error err => (.error (.Apply err), r.2)
    | .ok _ =>
      let acks := r.2.pending_acks.getD index ∅
      if r.2.majority = 1 then
        (.ok (.Acked { ack_count := 1, total := r.2.total, index, term }),
          { r.2 with pending_acks := r.2.pending_acks.erase index })
      else (.ok (.Waiting index term), { r.2 with pending_acks := AList.insert index acks r.2.pending_acks })

/-- What the leader sends to every peer for a submit that waits. -/
def submitMessage (e : ReplicationEngine) (index term : Nat) (cmd : ClusterCommand) : List (NodeId × ReplicationMessage) :=
  e.config.peers.map fun peer => (peer, .ReplicateCommand term index cmd)

def ackCount (e : ReplicationEngine) (index : Nat) : Nat := (e.pending_acks.getD index ∅).card + 1

/-- One look of the wait loop at the tally. -/
def pollSubmit (e : ReplicationEngine) (index term : Nat) : Option MajorityAck × ReplicationEngine :=
  if e.ackCount index ≥ e.majority then
    (some { ack_count := e.ackCount index, total := e.total, index, term },
      { e with pending_acks := e.pending_acks.erase index })
  else (none, e)

/-- The deadline of the wait loop. -/
def timeoutSubmit (e : ReplicationEngine) (index : Nat) : SubmitError × ReplicationEngine :=
  (.Timeout (e.ackCount index) e.total e.submit_timeout_ms, { e with pending_acks := e.pending_acks.erase index })

def receiveReplicateAck (e : ReplicationEngine) (follower_id : NodeId) (index : Nat) (success : Bool)
    (last_log_index_hint : Option Nat) : ReplicationEngine :=
  if follower_id ∉ e.config.peers then e
  else if success then
    let pending := match e.pending_acks.lookup index with
      | some set => AList.insert index (insert follower_id set) e.pending_acks
      | none => e.pending_acks
    { e with
      pending_acks := pending
      match_index := AList.insert follower_id (max (e.match_index.getD follower_id 0) index) e.match_index
      next_index := AList.insert follower_id (max (e.next_index.getD follower_id 1) (index + 1)) e.next_index }
  else
    let entry := e.next_index.getD follower_id index
    let walked := match last_log_index_hint with
      | some h => max (saturatingSucc h) 1
      | none => max (entry - 1) 1
    let back := if walked < entry then walked else max (entry - 1) 1
    { e with next_index := AList.insert follower_id back e.next_index }

/-! ## Replay to followers -/

def nextIndexFor (e : ReplicationEngine) (follower_id : NodeId) : Option Nat := e.next_index.lookup follower_id

def buildReplayBatch (e : ReplicationEngine) (follower_id : NodeId) : List (Nat × Nat × ClusterCommand) :=
  let start := (e.nextIndexFor follower_id).getD (e.last_index + 1)
  if start > e.last_index then []
  else
    -- The batch ends at the cap, so it is the first entries that qualify.
    let out := e.command_log.filterMap fun (idx, cmd) =>
      if idx < start then none else (e.log_terms[idx - 1]?).map fun term => (term, idx, cmd)
    out.take MAX_REPLAY_BATCH

def buildReplayActions (e : ReplicationEngine) : List (NodeId × ReplicationMessage) :=
  if ¬ e.isLeader ∨ e.last_index = 0 then []
  else e.next_index.keys.flatMap fun follower =>
    (e.buildReplayBatch follower).map fun (term, index, command) => (follower, .ReplicateCommand term index command)

def resetReplicationState (e : ReplicationEngine) : ReplicationEngine :=
  { e with
    next_index := e.config.peers.foldl (fun m peer => AList.insert peer (e.last_index + 1) m) ∅
    match_index := e.config.peers.foldl (fun m peer => AList.insert peer 0 m) ∅ }

/-! ## Elections -/

def isKnown (e : ReplicationEngine) (id : NodeId) : Bool := decide (id = e.config.node_id ∨ id ∈ e.config.peers)

def recordVote (e : ReplicationEngine) (voter_id : NodeId) (term : Nat) : Bool × ReplicationEngine :=
  if some term ≠ e.election_term ∨ term ≠ e.current_term then (false, e)
  else if ¬ e.isKnown voter_id then (false, e)
  else
    let entry := e.votes_received.getD term ∅
    (decide (voter_id ∉ entry), { e with votes_received := AList.insert term (insert voter_id entry) e.votes_received })

def votesCount (e : ReplicationEngine) (term : Nat) : Nat := (e.votes_received.getD term ∅).card

/-- The part `arm_election` and `start_election` share: a new term, the vote
for oneself, and a tally that holds only that vote. -/
def becomeCandidate (e : ReplicationEngine) : ReplicationEngine :=
  let new_term := succU64 e.current_term
  { e with
    current_term := new_term
    role := .Candidate
    voted_for := some e.config.node_id
    votes_received := AList.insert new_term {e.config.node_id} ∅
    election_term := some new_term
    history := { e.history with ballots := (new_term, e.config.node_id) :: e.history.ballots } }

def becomeLeader (e : ReplicationEngine) : ReplicationEngine := resetReplicationState { e with role := .Leader }

def armElection (e : ReplicationEngine) : Nat × ReplicationEngine :=
  let armed := becomeCandidate e
  (armed.current_term, if armed.config.peers = [] then becomeLeader armed else armed)

def recordInbox (e : ReplicationEngine) : List ReplicationMessage → ReplicationEngine
  | [] => e
  | .VoteResponse voter_id term true :: inbox => recordInbox (recordVote e voter_id term).2 inbox
  | _ :: inbox => recordInbox e inbox

/-- `inbox` is what the in-memory transport holds for the node after the
requests went out. -/
def startElection (e : ReplicationEngine) (inbox : List ReplicationMessage) : Bool × ReplicationEngine :=
  let armed := becomeCandidate e
  if armed.config.peers = [] then (true, becomeLeader armed)
  else
    let counted := recordInbox armed inbox
    if counted.votesCount armed.current_term ≥ counted.majority then (true, becomeLeader counted)
    else (false, { counted with role := .Follower, election_term := none })

def voteRequests (e : ReplicationEngine) : List (NodeId × ReplicationMessage) :=
  e.config.peers.map fun peer => (peer, .VoteRequest e.config.node_id e.current_term)

def receiveHeartbeat (env : StepEnv) (e : ReplicationEngine) (_leader_id : NodeId) (term : Nat) : ReplicationEngine :=
  if term ≥ e.current_term then
    resetElectionTimer env
      { e with
        current_term := term
        role := .Follower
        voted_for := if term > e.current_term then none else e.voted_for }
  else e

def tryPromoteToLeader (e : ReplicationEngine) : Bool × ReplicationEngine :=
  match e.election_term with
  | none => (false, e)
  | some term =>
    if e.current_term ≠ term ∨ e.role ≠ .Candidate ∨ e.votesCount term < e.majority then (false, e)
    else (true, becomeLeader e)

def receiveVoteResponse (e : ReplicationEngine) (voter_id : NodeId) (term : Nat) (granted : Bool) :
    Bool × ReplicationEngine :=
  if ¬ granted then (false, e) else recordVote e voter_id term

def receiveVoteRequest (e : ReplicationEngine) (candidate_id : NodeId) (term : Nat) :
    ReplicationMessage × ReplicationEngine :=
  if term < e.current_term then (.VoteResponse e.config.node_id e.current_term false, e)
  else
    let e := if term > e.current_term then { e with current_term := term, voted_for := none, role := .Follower } else e
    if e.voted_for = none ∨ e.voted_for = some candidate_id then
      (.VoteResponse e.config.node_id term true,
        { e with
          voted_for := some candidate_id
          history := { e.history with ballots := (term, candidate_id) :: e.history.ballots } })
    else (.VoteResponse e.config.node_id term false, e)

/-! ## Replicated commands -/

/-- The term stored at `index`; index 0 has term 0. -/
def storedTerm (e : ReplicationEngine) (index : Nat) : Option Nat :=
  if index = 0 then some 0 else e.log_terms[index - 1]?

def receiveCommand (env : StepEnv) (e : ReplicationEngine) (term index : Nat) (cmd : ClusterCommand) :
    Except ClusterError Unit × ReplicationEngine :=
  if term < e.current_term then (.error (.CommandFailed "stale term"), e)
  else
    let e := { e with current_term := term }
    if index ≤ e.last_index then
      match e.storedTerm index with
      | some stored =>
        if stored ≠ term ∧ stored ≠ 0 then
          (.error (.CommandFailed
            s!"log term mismatch at index {index}: stored term {stored}, leader term {term}"), e)
        else (.ok (), e)
      | none => (.ok (), e)
    else if index > e.last_index + 1 then
      (.error (.CommandFailed
        s!"log gap detected: follower last_index={e.last_index}, leader index={index}"), e)
    else
      let r := appendEntry deps env.apply e index term cmd
      match r.1 with
      | .error err => (.error err, r.2)
      | .ok _ => (.ok (), resetElectionTimer env r.2)

def processReplicateCommand (env : StepEnv) (e : ReplicationEngine) (term index : Nat) (cmd : ClusterCommand) :
    ReplicationMessage × ReplicationEngine :=
  let (result, e') := receiveCommand deps env e term index cmd
  (.ReplicateAck e'.config.node_id index result.toBool (some e'.last_index), e')

/-! ## Pre-votes -/

def startPreVote (e : ReplicationEngine) : PreVoteRound × ReplicationEngine :=
  let round_id := saturatingSucc e.pre_vote_round_id
  ({ proposed_term := succU64 e.current_term, round_id },
    { e with
      pre_vote_round_id := round_id
      pre_votes_received := AList.insert round_id {e.config.node_id} ∅ })

/-- A response of the current round counts, and one without a round id (0)
when its term is that of the round in flight. -/
def acceptRound (e : ReplicationEngine) (proposed_term round_id : Nat) : Bool :=
  if round_id = e.pre_vote_round_id then true
  else if round_id = 0 then match e.pre_vote_in_flight with
    | some round => decide (round.proposed_term = proposed_term)
    | none => false
  else false

def recordPreVote (e : ReplicationEngine) (voter_id : NodeId) (proposed_term round_id : Nat) :
    Bool × ReplicationEngine :=
  if ¬ e.isKnown voter_id then (false, e)
  else if ¬ e.acceptRound proposed_term round_id then (false, e)
  else
    let entry := e.pre_votes_received.getD e.pre_vote_round_id ∅
    (decide (voter_id ∉ entry),
      { e with pre_votes_received := AList.insert e.pre_vote_round_id (insert voter_id entry) e.pre_votes_received })

def preVotesCount (e : ReplicationEngine) (round_id : Nat) : Nat := (e.pre_votes_received.getD round_id ∅).card

def preVoteMajorityReached (e : ReplicationEngine) (round_id : Nat) : Bool :=
  decide (e.preVotesCount round_id ≥ e.majority)

def receivePreVoteRequest (env : StepEnv) (e : ReplicationEngine) (_candidate_id : NodeId)
    (proposed_term round_id : Nat) : ReplicationMessage :=
  let own_round_in_flight := match e.pre_vote_in_flight with
    | some r => decide (r.proposed_term ≤ proposed_term)
    | none => false
  let granted := decide (proposed_term > e.current_term) && (e.election_timer.isExpired env || own_round_in_flight)
  .RequestPreVoteResponse e.config.node_id proposed_term granted round_id

def receivePreVoteResponse (e : ReplicationEngine) (voter_id : NodeId) (proposed_term : Nat) (granted : Bool)
    (round_id : Nat) : Bool × ReplicationEngine :=
  if ¬ granted then (false, e) else recordPreVote e voter_id proposed_term round_id

/-! ## Snapshots -/

def getSnapshot (e : ReplicationEngine) : ClusterSnapshot × Nat × Nat :=
  (snapshot e.cluster_manager, e.last_index, e.current_term)

def handleSnapshotRequest (e : ReplicationEngine) (_follower_id : NodeId) : Option ReplicationMessage :=
  if ¬ e.isLeader then none
  else some (.SnapshotResponse e.getSnapshot.1 e.getSnapshot.2.1 e.getSnapshot.2.2)

def handleJoin (e : ReplicationEngine) (node_id : NodeId) (_addr : String) :
    Option ReplicationMessage × ReplicationEngine :=
  if ¬ e.isLeader then (none, e)
  else
    let tracked :=
      { e with
        next_index := AList.insert node_id (e.next_index.getD node_id (e.last_index + 1)) e.next_index
        match_index := AList.insert node_id (e.match_index.getD node_id 0) e.match_index }
    (some (.SnapshotResponse e.getSnapshot.1 e.getSnapshot.2.1 e.getSnapshot.2.2), tracked)

/-- Term, last index and term table are the snapshot's; role, vote and command
log stay. A failed install on disk is only logged. -/
def restoreSnapshot (e : ReplicationEngine) (snapshot : ClusterSnapshot) (last_index term : Nat) :
    Except ClusterError Unit × ReplicationEngine :=
  if last_index > MAX_SNAPSHOT_LOG_INDEX then
    (.error (.CommandFailed
      s!"snapshot last_index {last_index} exceeds the maximum supported ({MAX_SNAPSHOT_LOG_INDEX})"), e)
  else
    (.ok (), { e with
      cluster_manager := restore e.cluster_manager snapshot
      last_index := last_index
      current_term := term
      log_terms := List.replicate last_index term
      persistent_state := e.persistent_state.map fun st => (st.installSnapshot deps snapshot last_index term).2 })

def handleSnapshotResponse (env : StepEnv) (e : ReplicationEngine) (snapshot : ClusterSnapshot)
    (last_index term : Nat) : Except ClusterError Unit × ReplicationEngine :=
  let r := restoreSnapshot deps e snapshot last_index term
  match r.1 with
  | .error err => (.error err, r.2)
  | .ok () => (.ok (), resetElectionTimer env r.2)

/-! ## Snapshots in chunks -/

def nextSnapshotTransferId (e : ReplicationEngine) : Nat × ReplicationEngine :=
  let id := saturatingSucc e.snapshot_tx_next_id
  (id, { e with snapshot_tx_next_id := id })

def resumeChunkIdx (e : ReplicationEngine) (follower_id : NodeId) (transfer_id : Nat) : Nat :=
  match e.snapshot_tx_cursors.lookup follower_id with
  | some c =>
    if c.transfer_id = some transfer_id then match c.last_acked with
      | some a => a + 1
      | none => 0
    else 0
  | none => 0

/-- The chunk `idx` of `payload`. -/
def chunkAt (transfer_id chunk_size total_chunks last_index term : Nat) (payload : Bytes) (idx : Nat) : SnapshotChunk :=
  { transfer_id
    chunk_index := idx
    total_chunks
    is_final := decide (idx + 1 = total_chunks)
    last_index
    term
    total_bytes := payload.length
    payload := (payload.drop (idx * chunk_size)).take chunk_size }

/-- The number of chunks is cut to a `u32`. -/
def totalChunks (payload : Bytes) (chunk_size : Nat) : Nat :=
  max ((payload.length + chunk_size - 1) / chunk_size) 1 % 2 ^ 32

def buildSnapshotChunks (e : ReplicationEngine) (transfer_id start_chunk chunk_size : Nat) :
    Except ClusterError (List SnapshotChunk) :=
  if ¬ e.isLeader then .error (.CommandFailed "build_snapshot_chunks called on non-leader")
  else
    let chunk_size := max chunk_size 1
    let payload := deps.snapshot_json.to_vec e.getSnapshot.1
    let total_chunks := totalChunks payload chunk_size
    .ok ((List.range' start_chunk (total_chunks - start_chunk)).map
      (chunkAt transfer_id chunk_size total_chunks e.getSnapshot.2.1 e.getSnapshot.2.2 payload))

def receiveSnapshotChunkAck (e : ReplicationEngine) (follower_id : NodeId) (transfer_id last_received_chunk : Nat)
    (applied : Bool) : ReplicationEngine :=
  let cur := e.snapshot_tx_cursors.getD follower_id {}
  if cur.transfer_id ≠ none ∧ cur.transfer_id ≠ some transfer_id then
    { e with snapshot_tx_cursors := AList.insert follower_id cur e.snapshot_tx_cursors }
  else
    let last_acked := match cur.last_acked with
      | some prev => max prev last_received_chunk
      | none => last_received_chunk
    let cursor : ChunkCursor :=
      { transfer_id := some transfer_id, last_acked := some last_acked, applied := cur.applied || applied }
    { e with snapshot_tx_cursors := AList.insert follower_id cursor e.snapshot_tx_cursors }

/-- `buffers.retain(|tid, _| *tid == transfer_id)`. -/
def retainTransfer (buffers : HashMap Nat ChunkBuffer) (transfer_id : Nat) : HashMap Nat ChunkBuffer :=
  match buffers.lookup transfer_id with
  | some b => AList.insert transfer_id b ∅
  | none => ∅

/-- The buffer of the transfer, set up by the first chunk that arrives. -/
def openBuffer (buf : ChunkBuffer) (c : SnapshotChunk) : ChunkBuffer :=
  if buf.expected = 0 then
    { buf with expected := c.total_chunks, last_index := c.last_index, term := c.term, total_bytes := c.total_bytes }
  else buf

/-- The chunk goes into its buffer; a buffer that is complete is taken out and
joined, and comes with the last index and the term of its first chunk. A final
chunk that leaves the buffer incomplete changes nothing more: the buffer is put
back. -/
def reassemble (e : ReplicationEngine) (c : SnapshotChunk) :
    Except ClusterError (Option (Bytes × Nat × Nat)) × ReplicationEngine :=
  -- Buffers of other transfers are dropped.
  let buffers := retainTransfer e.snapshot_rx_buffers c.transfer_id
  let buf := openBuffer (buffers.getD c.transfer_id {}) c
  if buf.expected ≠ c.total_chunks then
    (.error (.CommandFailed
      s!"SnapshotChunk: total_chunks={c.total_chunks} differs from buffered {buf.expected}"),
      { e with snapshot_rx_buffers := AList.insert c.transfer_id buf buffers })
  else
    let buf := buf.recordChunk c.chunk_index c.payload
    if buf.isComplete then
      (match buf.assemble with
        | .error err => .error err
        | .ok bytes => .ok (some (bytes, buf.last_index, buf.term)),
        { e with snapshot_rx_buffers := buffers.erase c.transfer_id })
    else (.ok none, { e with snapshot_rx_buffers := AList.insert c.transfer_id buf buffers })

/-- The highest contiguous chunk the buffer of the transfer holds. -/
def lastReceivedChunk (e : ReplicationEngine) (c : SnapshotChunk) : Nat :=
  ((e.snapshot_rx_buffers.lookup c.transfer_id).bind (·.highest_contiguous)).getD c.chunk_index

def handleSnapshotChunk (e : ReplicationEngine) (c : SnapshotChunk) :
    Except ClusterError ReplicationMessage × ReplicationEngine :=
  if c.total_chunks = 0 then (.error (.CommandFailed "SnapshotChunk: total_chunks=0"), e)
  else if c.chunk_index ≥ c.total_chunks then
    (.error (.CommandFailed
      s!"SnapshotChunk: chunk_index={c.chunk_index} >= total_chunks={c.total_chunks}"), e)
  else if c.total_bytes > MAX_SNAPSHOT_TOTAL_BYTES then
    (.error (.CommandFailed
      s!"SnapshotChunk: total_bytes={c.total_bytes} > cap {MAX_SNAPSHOT_TOTAL_BYTES}"), e)
  else
    let r := reassemble e c
    match r.1 with
    | .error err => (.error err, r.2)
    | .ok none => (.ok (.SnapshotChunkAck e.config.node_id c.transfer_id (lastReceivedChunk r.2 c) false), r.2)
    | .ok (some (bytes, last_index, term)) => match deps.snapshot_json.from_slice bytes with
      | .error err => (.error (.CommandFailed s!"snapshot decode: {err}"), r.2)
      | .ok snapshot =>
        let r := restoreSnapshot deps r.2 snapshot last_index term
        match r.1 with
        | .error err => (.error err, r.2)
        | .ok () => (.ok (.SnapshotChunkAck e.config.node_id c.transfer_id (c.total_chunks - 1) true), r.2)

/-! ## The scheduler -/

def stepDown (e : ReplicationEngine) : ReplicationEngine := { e with role := .Follower }

def clearStartupGrace (e : ReplicationEngine) : ReplicationEngine := { e with startup_grace_until := none }

/-- The end of a pre-vote round that succeeded or was not needed. -/
def armFromTick (env : StepEnv) (e : ReplicationEngine) : ReplicationEngine :=
  { resetElectionTimer env (armElection e).2 with pre_vote_in_flight := none }

/-- A pre-vote round is in flight and has its majority. -/
def roundWon (e : ReplicationEngine) : Bool := match e.pre_vote_in_flight with
  | some round => e.preVoteMajorityReached round.round_id
  | none => false

/-- Inside the startup grace window. -/
def inGrace (env : StepEnv) (e : ReplicationEngine) : Bool := match e.startup_grace_until with
  | some deadline => decide (env.now < deadline)
  | none => false

def tick (env : StepEnv) (e : ReplicationEngine) : TickAction × ReplicationEngine :=
  if e.role = .Leader then
    let e := { e with pre_vote_in_flight := none }
    let (send, ticker) := e.heartbeat_ticker.shouldSend env
    let e := { e with heartbeat_ticker := ticker }
    if send then (.BroadcastHeartbeat e.config.node_id e.current_term, e) else (.Idle, e)
  else if e.roundWon then
    let e' := armFromTick env e
    if e.config.peers = [] then (.Idle, e') else (.BroadcastVoteRequest e.config.node_id e'.current_term, e')
  else if ¬ e.election_timer.isExpired env then (.Idle, e)
  else if e.inGrace env then (.Idle, resetElectionTimer env e)
  else if e.config.peers = [] then (.Idle, armFromTick env e)
  else
    let (round, e') := startPreVote e
    (.BroadcastPreVoteRequest e.config.node_id round.proposed_term round.round_id,
      resetElectionTimer env { e' with pre_vote_in_flight := some round })

/-- What the transport's tick loop sends for an action. -/
def broadcast (e : ReplicationEngine) : TickAction → List (NodeId × ReplicationMessage)
  | .Idle => []
  | .BroadcastPreVoteRequest candidate_id proposed_term round_id =>
    e.config.peers.map fun peer => (peer, .RequestPreVote candidate_id proposed_term round_id)
  | .BroadcastVoteRequest candidate_id term => e.config.peers.map fun peer => (peer, .VoteRequest candidate_id term)
  | .BroadcastHeartbeat leader_id term => e.config.peers.map fun peer => (peer, .Heartbeat leader_id term)

/-- A message arrives from `sender`: the handler the transport calls, and what
it writes back on the connection. A vote that is newly counted may end the
election. -/
def receive (env : StepEnv) (e : ReplicationEngine) (sender : NodeId) :
    ReplicationMessage → List (NodeId × ReplicationMessage) × ReplicationEngine
  | .Heartbeat leader_id term => ([], receiveHeartbeat env e leader_id term)
  | .VoteRequest candidate_id term =>
    let (resp, e') := receiveVoteRequest e candidate_id term
    ([(sender, resp)], e')
  | .VoteResponse voter_id term granted =>
    let (counted, e') := receiveVoteResponse e voter_id term granted
    ([], if counted then (tryPromoteToLeader e').2 else e')
  | .ReplicateCommand term index command =>
    let (resp, e') := processReplicateCommand deps env e term index command
    ([(sender, resp)], e')
  | .ReplicateAck follower_id index success hint => ([], receiveReplicateAck e follower_id index success hint)
  | .SnapshotRequest follower_id => ((handleSnapshotRequest e follower_id).toList.map (sender, ·), e)
  | .SnapshotResponse snapshot last_index term => ([], (handleSnapshotResponse deps env e snapshot last_index term).2)
  | .Join node_id addr =>
    let (resp, e') := handleJoin e node_id addr
    (resp.toList.map (sender, ·), e')
  | .RequestPreVote candidate_id proposed_term round_id =>
    ([(sender, receivePreVoteRequest env e candidate_id proposed_term round_id)], e)
  | .RequestPreVoteResponse voter_id proposed_term granted round_id =>
    ([], (receivePreVoteResponse e voter_id proposed_term granted round_id).2)
  | .SnapshotChunk chunk => match handleSnapshotChunk deps e chunk with
    | (.ok ack, e') => ([(sender, ack)], e')
    | (.error _, e') => ([], e')
  | .SnapshotChunkAck follower_id transfer_id last_received_chunk applied =>
    ([], receiveSnapshotChunkAck e follower_id transfer_id last_received_chunk applied)

/-! ## What a chunk does -/

/-- The chunk is refused before any buffer is looked at. -/
def BadHeader (c : SnapshotChunk) : Prop :=
  c.total_chunks = 0 ∨ c.chunk_index ≥ c.total_chunks ∨ c.total_bytes > MAX_SNAPSHOT_TOTAL_BYTES

instance (c : SnapshotChunk) : Decidable (BadHeader c) := inferInstanceAs (Decidable (_ ∨ _ ∨ _))

/-- The engine once the chunk is in its buffer. -/
def buffered (e : ReplicationEngine) (c : SnapshotChunk) : ReplicationEngine :=
  if BadHeader c then e else (reassemble e c).2

/-- The snapshot a chunk completes and installs, with its last index and term. -/
def installs (e : ReplicationEngine) (c : SnapshotChunk) : Option (ClusterSnapshot × Nat × Nat) :=
  if BadHeader c then none
  else match (reassemble e c).1 with
    | .ok (some (bytes, last_index, term)) => match deps.snapshot_json.from_slice bytes with
      | .ok sn => if last_index > MAX_SNAPSHOT_LOG_INDEX then none else some (sn, last_index, term)
      | .error _ => none
    | _ => none

/-- A chunk that installs nothing is buffered at most, and not acknowledged as
applied. -/
theorem handleSnapshotChunk_none {e : ReplicationEngine} {c : SnapshotChunk} (h : installs deps e c = none) :
    (handleSnapshotChunk deps e c).2 = buffered e c ∧
      ∀ f t l, (handleSnapshotChunk deps e c).1 ≠ .ok (.SnapshotChunkAck f t l true) := by
  unfold installs at h
  unfold handleSnapshotChunk buffered
  by_cases h0 : c.total_chunks = 0
  · simp [BadHeader, h0]
  by_cases h1 : c.chunk_index ≥ c.total_chunks
  · simp [BadHeader, h0, h1]
  by_cases h2 : c.total_bytes > MAX_SNAPSHOT_TOTAL_BYTES
  · have hb : BadHeader c := .inr (.inr h2)
    simp only [h0, h1, h2, hb, if_true, if_false]
    exact ⟨trivial, by simp⟩
  have hb : ¬ BadHeader c := by simp only [BadHeader, h0, h1, h2, or_self, not_false_eq_true]
  simp only [h0, h1, h2, hb, if_false] at h ⊢
  cases hr : (reassemble e c).1 with
  | error err => simp
  | ok r => match r with
    | none => simp
    | some (bytes, last_index, term) =>
      simp only [hr] at h ⊢
      cases hd : deps.snapshot_json.from_slice bytes with
      | error err => simp
      | ok sn =>
        simp only [hd] at h ⊢
        have hl : last_index > MAX_SNAPSHOT_LOG_INDEX := by
          by_contra hl
          simp [hl] at h
        simp only [restoreSnapshot, hl, if_true]
        exact ⟨trivial, by simp⟩

/-- A chunk that completes its transfer restores the buffered snapshot. -/
theorem handleSnapshotChunk_some {e : ReplicationEngine} {c : SnapshotChunk} {sn : ClusterSnapshot}
    {last_index term : Nat} (h : installs deps e c = some (sn, last_index, term)) :
    last_index ≤ MAX_SNAPSHOT_LOG_INDEX ∧ handleSnapshotChunk deps e c =
      (.ok (.SnapshotChunkAck e.config.node_id c.transfer_id (c.total_chunks - 1) true),
        (restoreSnapshot deps (buffered e c) sn last_index term).2) := by
  unfold installs at h
  split at h
  · cases h
  · next hb =>
    obtain ⟨h0, h1, h2⟩ : c.total_chunks ≠ 0 ∧ ¬ c.chunk_index ≥ c.total_chunks ∧
        ¬ c.total_bytes > MAX_SNAPSHOT_TOTAL_BYTES := by
      simpa only [BadHeader, not_or] using hb
    split at h
    · next bytes li t hr =>
      split at h
      · next sn' hd =>
        split at h
        · cases h
        · next hl =>
          cases h
          refine ⟨not_lt.1 hl, ?_⟩
          simp only [handleSnapshotChunk, h0, h1, h2, hb, hr, hd, buffered, restoreSnapshot, hl, if_false]
      · cases h
    · cases h

end ReplicationEngine

end FerroDruid.Cluster
