import FerroDruid.Lib.Run
import FerroDruid.Cluster.Engine
import Mathlib.Data.Finset.Basic
/-!
# Nodes and the network between them

`nodeStep` is one operation of one engine with the messages it sends. `Net` is
a cluster of engines with every message sent so far: a delivery picks any of
them, so messages arrive in any order, more than once or never, and none is
forged. A submit that waits is a call the network remembers until it returns.
-/

namespace FerroDruid.Cluster

open FerroDruid.Lib ReplicationEngine List

variable (deps : Deps)

abbrev Outbox := List (NodeId × ReplicationMessage)

/-- What a node does by itself. -/
inductive LocalInput where
  | tick (env : StepEnv)
  | armElection
  | replay
  | requestSnapshot (leader : NodeId)
  | join (leader : NodeId) (addr : String)
  | nextTransferId
  | sendChunks (follower : NodeId) (transfer_id start_chunk chunk_size : Nat)
  | stepDown
  | clearStartupGrace

inductive NodeInput where
  | receive (env : StepEnv) (sender : NodeId) (msg : ReplicationMessage)
  | startElection (inbox : List ReplicationMessage)
  | act (i : LocalInput)
  | submit (env : StepEnv) (cmd : ClusterCommand)
  | poll (index term : Nat)
  | timeout (index : Nat)

def localStep (e : ReplicationEngine) : LocalInput → Outbox × ReplicationEngine
  | .tick env => (e.broadcast (tick env e).1, (tick env e).2)
  | .armElection => (voteRequests (armElection e).2, (armElection e).2)
  | .replay => (buildReplayActions e, e)
  | .requestSnapshot leader => ([(leader, .SnapshotRequest e.config.node_id)], e)
  | .join leader addr => ([(leader, .Join e.config.node_id addr)], e)
  | .nextTransferId => ([], (nextSnapshotTransferId e).2)
  | .sendChunks follower transfer_id start_chunk chunk_size =>
    match buildSnapshotChunks deps e transfer_id start_chunk chunk_size with
    | .ok chunks => (chunks.map fun c => (follower, .SnapshotChunk c), e)
    | .error _ => ([], e)
  | .stepDown => ([], stepDown e)
  | .clearStartupGrace => ([], clearStartupGrace e)

/-- A submit sends its entry to every peer when it has to wait. -/
def submitOutbox (e : ReplicationEngine) (cmd : ClusterCommand) : Except SubmitError Submitted → Outbox
  | .ok (.Waiting index term) => submitMessage e index term cmd
  | _ => []

def nodeStep (e : ReplicationEngine) : NodeInput → Outbox × ReplicationEngine
  | .receive env sender msg => receive deps env e sender msg
  | .startElection inbox => (voteRequests (becomeCandidate e), (startElection e inbox).2)
  | .act i => localStep deps e i
  | .submit env cmd => (submitOutbox e cmd (beginSubmit deps env e cmd).1, (beginSubmit deps env e cmd).2)
  | .poll index term => ([], (pollSubmit e index term).2)
  | .timeout index => ([], (timeoutSubmit e index).2)

/-- The snapshot an input installs, with its last index and term. -/
def installed (e : ReplicationEngine) : NodeInput → Option (ClusterSnapshot × Nat × Nat)
  | .receive _ _ (.SnapshotResponse sn last_index term) =>
    if last_index > MAX_SNAPSHOT_LOG_INDEX then none else some (sn, last_index, term)
  | .receive _ _ (.SnapshotChunk c) => installs deps e c
  | _ => none

/-! ## What most inputs leave alone -/

structure LogView where
  last_index : Nat
  command_log : List (Nat × ClusterCommand)
  log_terms : List Nat
  applied : List ClusterCommand
  deriving DecidableEq, Repr

namespace LogView

/-- One more entry, applied. -/
def push (l : LogView) (term : Nat) (cmd : ClusterCommand) : LogView where
  last_index := l.last_index + 1
  command_log := l.command_log ++ [(l.last_index + 1, cmd)]
  log_terms := l.log_terms ++ [term]
  applied := l.applied ++ [cmd]

/-- A restored snapshot: the term table is filled with its term, the commands
stay. -/
def rebase (l : LogView) (last_index term : Nat) : LogView :=
  { l with last_index := last_index, log_terms := List.replicate last_index term }

end LogView

def ReplicationEngine.log (e : ReplicationEngine) : LogView where
  last_index := e.last_index
  command_log := e.command_log
  log_terms := e.log_terms
  applied := e.history.applied

/-- The configuration of a node, its log, its disk and its snapshot transfers. -/
structure Holdings where
  config : ReplicationConfig
  log : LogView
  persistent_state : Option PersistentRaftState
  snapshot_rx_buffers : HashMap Nat ChunkBuffer
  snapshot_tx_cursors : HashMap NodeId ChunkCursor

def ReplicationEngine.holdings (e : ReplicationEngine) : Holdings where
  config := e.config
  log := e.log
  persistent_state := e.persistent_state
  snapshot_rx_buffers := e.snapshot_rx_buffers
  snapshot_tx_cursors := e.snapshot_tx_cursors

/-- One more entry, in the log and on the disk. -/
def Holdings.append (h : Holdings) (term : Nat) (cmd : ClusterCommand) : Holdings :=
  { h with
    log := h.log.push term cmd
    persistent_state := h.persistent_state.map fun st => st.appendLogEntry deps (h.log.last_index + 1) term cmd }

/-- A snapshot, in the place of the log and on the disk. -/
def Holdings.install (h : Holdings) (sn : ClusterSnapshot) (last_index term : Nat) : Holdings :=
  { h with
    log := h.log.rebase last_index term
    persistent_state := h.persistent_state.map fun st => (st.installSnapshot deps sn last_index term).2 }

/-- The inputs that can reach them. -/
inductive Reaches : NodeInput → Prop
  | command (env : StepEnv) (s : NodeId) (term index : Nat) (cmd : ClusterCommand) :
      Reaches (.receive env s (.ReplicateCommand term index cmd))
  | snapshot (env : StepEnv) (s : NodeId) (sn : ClusterSnapshot) (li t : Nat) :
      Reaches (.receive env s (.SnapshotResponse sn li t))
  | chunk (env : StepEnv) (s : NodeId) (c : SnapshotChunk) : Reaches (.receive env s (.SnapshotChunk c))
  | chunkAck (env : StepEnv) (s f : NodeId) (t l : Nat) (applied : Bool) :
      Reaches (.receive env s (.SnapshotChunkAck f t l applied))
  | submit (env : StepEnv) (cmd : ClusterCommand) : Reaches (.submit env cmd)

variable (env : StepEnv) (e : ReplicationEngine)

theorem recordVote_frame (w : NodeId) (t : Nat) : ∃ votes, (recordVote e w t).2 = { e with votes_received := votes } := by
  unfold recordVote
  split_ifs <;> exact ⟨_, rfl⟩

/-- Votes that are collected change only the tallies. -/
theorem recordInbox_frame (inbox : List ReplicationMessage) (e : ReplicationEngine) :
    ∃ votes, recordInbox e inbox = { e with votes_received := votes } := by
  fun_induction recordInbox e inbox with
  | case1 e => exact ⟨_, rfl⟩
  | case2 e w t inbox ih =>
    obtain ⟨votes, ih⟩ := ih
    obtain ⟨votes', h⟩ := recordVote_frame e w t
    exact ⟨votes, by rw [ih, h]⟩
  | case3 e m inbox hne ih => exact ih

theorem armElection_holdings : (armElection e).2.holdings = e.holdings := by
  unfold armElection
  simp only
  split <;> rfl

/-- Elections, votes, ticks and cursors of replication change none of them. -/
theorem nodeStep_holdings {i : NodeInput} (h : ¬ Reaches i) : (nodeStep deps e i).2.holdings = e.holdings := by
  cases i with
  | receive env s msg => cases msg with
    | ReplicateCommand t index cmd => exact absurd (.command env s t index cmd) h
    | SnapshotResponse sn li t => exact absurd (.snapshot env s sn li t) h
    | SnapshotChunk c => exact absurd (.chunk env s c) h
    | SnapshotChunkAck f t l applied => exact absurd (.chunkAck env s f t l applied) h
    | Heartbeat l t => simp only [nodeStep, receive, receiveHeartbeat]; split <;> rfl
    | VoteRequest c t => simp only [nodeStep, receive, receiveVoteRequest]; split_ifs <;> rfl
    | VoteResponse w t granted =>
      have hvote : (receiveVoteResponse e w t granted).2.holdings = e.holdings := by
        unfold receiveVoteResponse
        split
        · rfl
        · obtain ⟨votes, h⟩ := recordVote_frame e w t
          rw [h]
          rfl
      simp only [nodeStep, receive]
      split
      · unfold tryPromoteToLeader
        split
        · exact hvote
        · split <;> exact hvote
      · exact hvote
    | ReplicateAck f index success hint => simp only [nodeStep, receive, receiveReplicateAck]; split_ifs <;> rfl
    | Join n addr => simp only [nodeStep, receive, handleJoin]; split <;> rfl
    | RequestPreVoteResponse w t granted r =>
      simp only [nodeStep, receive, receivePreVoteResponse, recordPreVote]; split_ifs <;> rfl
    | SnapshotRequest f => rfl
    | RequestPreVote c t r => rfl
  | startElection inbox =>
    obtain ⟨votes, h⟩ := recordInbox_frame inbox (becomeCandidate e)
    simp only [nodeStep, startElection, h]
    split_ifs <;> rfl
  | act i => cases i with
    | tick env =>
      have harm : (armFromTick env e).holdings = e.holdings := armElection_holdings e
      simp only [nodeStep, localStep, tick]
      split_ifs <;> first | rfl | exact harm
    | armElection => exact armElection_holdings e
    | sendChunks f tid st sz => simp only [nodeStep, localStep]; split <;> rfl
    | _ => rfl
  | submit env cmd => exact absurd (.submit env cmd) h
  | poll index term => simp only [nodeStep, pollSubmit]; split <;> rfl
  | timeout index => rfl

/-- A command is appended at the next index, when its term is not stale. -/
theorem receiveCommand_holdings (term index : Nat) (cmd : ClusterCommand) :
    (receiveCommand deps env e term index cmd).2.holdings =
      if e.current_term ≤ term ∧ index = e.last_index + 1 then e.holdings.append deps term cmd else e.holdings := by
  unfold receiveCommand
  by_cases ht : term < e.current_term
  · rw [if_pos ht, if_neg (fun h => absurd h.1 (not_le.2 ht))]
  rw [if_neg ht]
  simp only
  by_cases h1 : index ≤ e.last_index
  · have hn : ¬ (e.current_term ≤ term ∧ index = e.last_index + 1) := by omega
    rw [if_pos h1, if_neg hn]
    split
    · split <;> rfl
    · rfl
  rw [if_neg h1]
  by_cases h2 : index > e.last_index + 1
  · have hn : ¬ (e.current_term ≤ term ∧ index = e.last_index + 1) := by omega
    rw [if_pos h2, if_neg hn]
    rfl
  have hi : index = e.last_index + 1 := by omega
  subst hi
  rw [if_neg h2, if_pos ⟨not_lt.1 ht, rfl⟩]
  split <;> rfl

theorem receiveCommand_config (term index : Nat) (cmd : ClusterCommand) :
    (receiveCommand deps env e term index cmd).2.config = e.config :=
  (congrArg Holdings.config (receiveCommand_holdings deps env e term index cmd)).trans (by split <;> rfl)

theorem beginSubmit_holdings (cmd : ClusterCommand) :
    (beginSubmit deps env e cmd).2.holdings =
      if e.role = .Leader then e.holdings.append deps e.current_term cmd else e.holdings := by
  unfold beginSubmit isLeader
  by_cases hl : e.role = .Leader
  · simp only [hl, decide_true, not_true_eq_false, if_true, if_false]
    split
    · rfl
    · split <;> rfl
  · simp only [hl, decide_false, Bool.false_eq_true, not_false_eq_true, if_true, if_false]

theorem restoreSnapshot_holdings (sn : ClusterSnapshot) (last_index term : Nat) :
    (restoreSnapshot deps e sn last_index term).2.holdings =
      if last_index > MAX_SNAPSHOT_LOG_INDEX then e.holdings else e.holdings.install deps sn last_index term := by
  unfold restoreSnapshot
  split <;> rfl

theorem buffered_holdings (c : SnapshotChunk) :
    (buffered e c).holdings = { e.holdings with snapshot_rx_buffers := (buffered e c).snapshot_rx_buffers } := by
  unfold buffered reassemble
  simp only
  split_ifs <;> rfl

theorem handleSnapshotChunk_holdings (c : SnapshotChunk) :
    (handleSnapshotChunk deps e c).2.holdings = match installs deps e c with
      | some (sn, li, t) => (buffered e c).holdings.install deps sn li t
      | none => (buffered e c).holdings := by
  cases h : installs deps e c with
  | none => rw [(handleSnapshotChunk_none deps h).1]
  | some r =>
    obtain ⟨hl, hs⟩ := handleSnapshotChunk_some deps h
    rw [hs, restoreSnapshot_holdings, if_neg (not_lt.2 hl)]

theorem receive_snapshotResponse (s : NodeId) (sn : ClusterSnapshot) (li t : Nat) :
    (receive deps env e s (.SnapshotResponse sn li t)).2.holdings = (restoreSnapshot deps e sn li t).2.holdings := by
  simp only [receive, handleSnapshotResponse]
  split <;> rfl

theorem receive_snapshotChunk (s : NodeId) (c : SnapshotChunk) :
    (receive deps env e s (.SnapshotChunk c)).2 = (handleSnapshotChunk deps e c).2 := by
  simp only [receive]
  split <;> (next he => rw [he])

/-- Only a chunk and the acknowledgement of one reach the transfers. -/
theorem nodeStep_frame {i : NodeInput} (hchunk : ∀ env s c, i ≠ .receive env s (.SnapshotChunk c))
    (hack : ∀ env s f t l applied, i ≠ .receive env s (.SnapshotChunkAck f t l applied)) :
    ∃ log st, (nodeStep deps e i).2.holdings = { e.holdings with log := log, persistent_state := st } := by
  by_cases hreach : Reaches i
  swap
  · exact ⟨_, _, nodeStep_holdings deps e hreach⟩
  cases hreach with
  | command env s t index cmd =>
    simp only [nodeStep, receive, processReplicateCommand, receiveCommand_holdings]
    split <;> exact ⟨_, _, rfl⟩
  | snapshot env s sn li t =>
    simp only [nodeStep, receive_snapshotResponse, restoreSnapshot_holdings]
    split <;> exact ⟨_, _, rfl⟩
  | chunk env s c => exact absurd rfl (hchunk env s c)
  | chunkAck env s f t l applied => exact absurd rfl (hack env s f t l applied)
  | submit env cmd =>
    simp only [nodeStep, beginSubmit_holdings]
    split <;> exact ⟨_, _, rfl⟩

theorem receiveSnapshotChunkAck_holdings (f : NodeId) (t l : Nat) (applied : Bool) :
    (receiveSnapshotChunkAck e f t l applied).holdings =
      { e.holdings with snapshot_tx_cursors := (receiveSnapshotChunkAck e f t l applied).snapshot_tx_cursors } := by
  unfold receiveSnapshotChunkAck
  simp only
  split_ifs <;> rfl

/-- The configuration never changes. -/
@[simp] theorem nodeStep_config (i : NodeInput) : (nodeStep deps e i).2.config = e.config := by
  by_cases hchunk : ∃ env s c, i = .receive env s (.SnapshotChunk c)
  · obtain ⟨env, s, c, rfl⟩ := hchunk
    have h := congrArg Holdings.config (handleSnapshotChunk_holdings deps e c)
    have hb := congrArg Holdings.config (buffered_holdings e c)
    simp only [nodeStep, receive_snapshotChunk]
    exact h.trans (by split <;> exact hb)
  by_cases hack : ∃ env s f t l applied, i = .receive env s (.SnapshotChunkAck f t l applied)
  · obtain ⟨env, s, f, t, l, applied, rfl⟩ := hack
    exact congrArg Holdings.config (receiveSnapshotChunkAck_holdings e f t l applied)
  obtain ⟨log, st, h⟩ := nodeStep_frame deps e (fun env s c hi => hchunk ⟨env, s, c, hi⟩)
    fun env s f t l applied hi => hack ⟨env, s, f, t, l, applied, hi⟩
  exact congrArg Holdings.config h

/-! ## What a node sends -/

/-- Every message an input can make a node send. -/
inductive Sends (e : ReplicationEngine) (i : NodeInput) : NodeId → ReplicationMessage → Prop
  | heartbeat (dst : NodeId) (h : e.role = .Leader) : Sends e i dst (.Heartbeat e.config.node_id e.current_term)
  | voteRequest (dst : NodeId) (t : Nat) : Sends e i dst (.VoteRequest e.config.node_id t)
  | preVoteRequest (dst : NodeId) (t r : Nat) : Sends e i dst (.RequestPreVote e.config.node_id t r)
  | preVoteResponse (dst : NodeId) (t r : Nat) (granted : Bool) :
      Sends e i dst (.RequestPreVoteResponse e.config.node_id t granted r)
  | granted (env : StepEnv) (dst c : NodeId) (t : Nat) (hi : i = .receive env dst (.VoteRequest c t))
      (hb : (t, c) ∈ (nodeStep deps e i).2.history.ballots) : Sends e i dst (.VoteResponse e.config.node_id t true)
  | refused (dst : NodeId) (t : Nat) : Sends e i dst (.VoteResponse e.config.node_id t false)
  | submitted (env : StepEnv) (dst : NodeId) (cmd : ClusterCommand) (index term : Nat) (hi : i = .submit env cmd)
      (hw : (beginSubmit deps env e cmd).1 = .ok (.Waiting index term)) :
      Sends e i dst (.ReplicateCommand term index cmd)
  | replayed (dst : NodeId) (term index : Nat) (cmd : ClusterCommand) (h : (term, index, cmd) ∈ e.buildReplayBatch dst) :
      Sends e i dst (.ReplicateCommand term index cmd)
  | ack (env : StepEnv) (dst : NodeId) (term index : Nat) (cmd : ClusterCommand)
      (hi : i = .receive env dst (.ReplicateCommand term index cmd)) :
      Sends e i dst (.ReplicateAck e.config.node_id index (receiveCommand deps env e term index cmd).1.toBool
        (some (receiveCommand deps env e term index cmd).2.last_index))
  | snapshot (dst : NodeId) (h : e.role = .Leader) :
      Sends e i dst (.SnapshotResponse e.getSnapshot.1 e.getSnapshot.2.1 e.getSnapshot.2.2)
  | snapshotRequest (dst : NodeId) : Sends e i dst (.SnapshotRequest e.config.node_id)
  | join (dst : NodeId) (addr : String) : Sends e i dst (.Join e.config.node_id addr)
  | chunk (dst : NodeId) (tid start size : Nat) (chunks : List SnapshotChunk) (c : SnapshotChunk)
      (h : buildSnapshotChunks deps e tid start size = .ok chunks) (hc : c ∈ chunks) : Sends e i dst (.SnapshotChunk c)
  | chunkAck (env : StepEnv) (dst : NodeId) (c : SnapshotChunk) (tid l : Nat) (applied : Bool)
      (hi : i = .receive env dst (.SnapshotChunk c)) :
      Sends e i dst (.SnapshotChunkAck e.config.node_id tid l applied)

variable {msg : ReplicationMessage} {dst : NodeId}

theorem mem_peers_map {peers : List NodeId} {m : ReplicationMessage}
    (h : (dst, msg) ∈ peers.map fun p => (p, m)) : msg = m := by
  obtain ⟨p, -, hp⟩ := mem_map.1 h
  cases hp
  rfl

theorem handleSnapshotChunk_ack {e : ReplicationEngine} {c : SnapshotChunk} {ack : ReplicationMessage}
    (h : (handleSnapshotChunk deps e c).1 = .ok ack) :
    ∃ tid l applied, ack = .SnapshotChunkAck e.config.node_id tid l applied := by
  cases hi : installs deps e c with
  | some r =>
    rw [(handleSnapshotChunk_some deps hi).2] at h
    cases h
    exact ⟨_, _, _, rfl⟩
  | none =>
    have hn := (handleSnapshotChunk_none deps hi).2
    unfold handleSnapshotChunk at h hn
    simp only at h hn
    split_ifs at h hn
    split at h
    · cases h
    · cases h; exact ⟨_, _, _, rfl⟩
    · split at h
      · cases h
      · split at h
        · cases h
        · cases h; exact ⟨_, _, _, rfl⟩

theorem tick_sends {env : StepEnv} {e : ReplicationEngine} {i : NodeInput}
    (h : (dst, msg) ∈ e.broadcast (tick env e).1) : Sends deps e i dst msg := by
  unfold tick at h
  simp only at h
  split_ifs at h with h1 h2 h3 h4 h5 h6 h7 <;> simp only [broadcast] at h
  · exact mem_peers_map h ▸ .heartbeat dst h1
  · cases h
  · cases h
  · exact mem_peers_map h ▸ .voteRequest dst _
  · cases h
  · cases h
  · exact mem_peers_map h ▸ .preVoteRequest dst _ _
  · cases h

theorem receive_sends {env : StepEnv} {e : ReplicationEngine} {s : NodeId} {m : ReplicationMessage}
    (h : (dst, msg) ∈ (receive deps env e s m).1) : Sends deps e (.receive env s m) dst msg := by
  cases m with
  | VoteRequest c t =>
    have hb : nodeStep deps e (.receive env s (.VoteRequest c t)) =
        ([(s, (receiveVoteRequest e c t).1)], (receiveVoteRequest e c t).2) := rfl
    simp only [receive, mem_singleton, Prod.mk.injEq] at h
    obtain ⟨rfl, rfl⟩ := h
    by_cases h1 : t < e.current_term
    · rw [show (receiveVoteRequest e c t).1 = .VoteResponse e.config.node_id e.current_term false by
        simp only [receiveVoteRequest, h1, if_true]]
      exact .refused _ _
    · by_cases hg : (receiveVoteRequest e c t).1 = .VoteResponse e.config.node_id t true
      · rw [hg]
        refine .granted env _ c t rfl ?_
        rw [hb]
        unfold receiveVoteRequest at hg ⊢
        simp only [h1, if_false] at hg ⊢
        split_ifs at hg ⊢ <;> first | exact mem_cons_self | simp at hg
      · have hr : (receiveVoteRequest e c t).1 = .VoteResponse e.config.node_id t false := by
          unfold receiveVoteRequest at hg ⊢
          simp only [h1, if_false] at hg ⊢
          split_ifs at hg ⊢ <;> first | rfl | simp at hg
        rw [hr]
        exact .refused _ _
  | ReplicateCommand t index cmd =>
    simp only [receive, processReplicateCommand, mem_singleton, Prod.mk.injEq] at h
    obtain ⟨rfl, rfl⟩ := h
    rw [receiveCommand_config]
    exact .ack env _ t index cmd rfl
  | SnapshotRequest f =>
    simp only [receive, handleSnapshotRequest] at h
    split at h
    · simp at h
    · next hl =>
      simp only [Option.toList_some, map_cons, map_nil, mem_singleton, Prod.mk.injEq] at h
      obtain ⟨rfl, rfl⟩ := h
      exact .snapshot _ (by simpa [isLeader] using hl)
  | Join n addr =>
    simp only [receive, handleJoin] at h
    split at h
    · simp at h
    · next hl =>
      simp only [Option.toList_some, map_cons, map_nil, mem_singleton, Prod.mk.injEq] at h
      obtain ⟨rfl, rfl⟩ := h
      exact .snapshot _ (by simpa [isLeader] using hl)
  | RequestPreVote c t r =>
    simp only [receive, receivePreVoteRequest, mem_singleton, Prod.mk.injEq] at h
    obtain ⟨rfl, rfl⟩ := h
    exact .preVoteResponse _ _ _ _
  | SnapshotChunk c =>
    simp only [receive] at h
    split at h
    · next ack e' he =>
      have hok : (handleSnapshotChunk deps e c).1 = .ok ack := by rw [he]
      obtain ⟨tid, l, applied, rfl⟩ := handleSnapshotChunk_ack deps hok
      simp only [mem_singleton, Prod.mk.injEq] at h
      obtain ⟨rfl, rfl⟩ := h
      exact .chunkAck env _ c tid l applied rfl
    · cases h
  | _ => cases h

theorem nodeStep_sends {e : ReplicationEngine} {i : NodeInput}
    (h : (dst, msg) ∈ (nodeStep deps e i).1) : Sends deps e i dst msg := by
  cases i with
  | receive env s m => exact receive_sends deps h
  | startElection inbox => exact mem_peers_map h ▸ .voteRequest dst _
  | act i =>
    cases i with
    | tick env => exact tick_sends deps h
    | armElection =>
      have hm := mem_peers_map h
      have hconfig : (armElection e).2.config = e.config := congrArg Holdings.config (armElection_holdings e)
      rw [hconfig] at hm
      exact hm ▸ .voteRequest dst _
    | replay =>
      simp only [nodeStep, localStep, buildReplayActions] at h
      split at h
      · cases h
      · obtain ⟨f, -, hf⟩ := mem_flatMap.1 h
        obtain ⟨⟨t, index, cmd⟩, hb, hp⟩ := mem_map.1 hf
        cases hp
        exact .replayed _ t index cmd hb
    | requestSnapshot l =>
      simp only [nodeStep, localStep, mem_singleton, Prod.mk.injEq] at h
      obtain ⟨rfl, rfl⟩ := h
      exact .snapshotRequest _
    | join l addr =>
      simp only [nodeStep, localStep, mem_singleton, Prod.mk.injEq] at h
      obtain ⟨rfl, rfl⟩ := h
      exact .join _ addr
    | sendChunks f tid st sz =>
      simp only [nodeStep, localStep] at h
      split at h
      · next chunks hb =>
        obtain ⟨c, hc, hp⟩ := mem_map.1 h
        cases hp
        exact .chunk _ tid st sz chunks c hb hc
      · cases h
    | _ => cases h
  | submit env cmd =>
    simp only [nodeStep, submitOutbox] at h
    split at h
    · next index term hw => exact mem_peers_map h ▸ .submitted env dst cmd index term rfl hw
    · cases h
  | poll index term => cases h
  | timeout index => cases h

/-! ## Clusters -/

/-- A fixed membership with mutually consistent peer lists. -/
structure Membership where
  members : Finset NodeId
  config : NodeId → ReplicationConfig
  config_id : ∀ n ∈ members, (config n).node_id = n
  peers_nodup : ∀ n ∈ members, (config n).peers.Nodup
  peers_eq : ∀ n ∈ members, (config n).peers.toFinset = members.erase n

structure Envelope where
  src : NodeId
  dst : NodeId
  msg : ReplicationMessage

/-- A `submit_with_majority_ack` call in its wait loop. -/
structure Call where
  node : NodeId
  index : Nat
  term : Nat
  cmd : ClusterCommand
  deriving DecidableEq, Repr

structure Net where
  nodes : NodeId → ReplicationEngine
  sent : List Envelope
  waiting : List Call
  /-- The calls that returned `Ok`. -/
  acked : List Call

inductive NetInput where
  | deliver (k : Nat) (env : StepEnv)
  | startElection (n : NodeId) (ks : List Nat)
  | act (n : NodeId) (i : LocalInput)
  | submit (n : NodeId) (env : StepEnv) (cmd : ClusterCommand)
  | poll (k : Nat)
  | timeout (k : Nat)

namespace Net

variable (cl : Membership)

def start (env : NodeId → StepEnv) (managers : NodeId → ClusterManager) : Net where
  nodes n := ReplicationEngine.new (env n) (cl.config n) (managers n)
  sent := []
  waiting := []
  acked := []

/-- Node `n` takes input `i` and sends what the step sends. -/
def run (s : Net) (n : NodeId) (i : NodeInput) : Net :=
  { s with
    nodes := Function.update s.nodes n (nodeStep deps (s.nodes n) i).2
    sent := s.sent ++ (nodeStep deps (s.nodes n) i).1.map fun (dst, msg) => ⟨n, dst, msg⟩ }

/-- The messages at places `ks` that are for `n`. -/
def inbox (s : Net) (n : NodeId) (ks : List Nat) : List ReplicationMessage :=
  ks.filterMap fun k => match s.sent[k]? with
    | some m => if m.dst = n then some m.msg else none
    | none => none

/-- The node an input runs on and what it takes, when the input is possible:
a message was sent to a member, a call waits. -/
def target (s : Net) : NetInput → Option (NodeId × NodeInput)
  | .deliver k env => match s.sent[k]? with
    | some m => some (m.dst, .receive env m.src m.msg)
    | none => none
  | .startElection n ks => some (n, .startElection (s.inbox n ks))
  | .act n i => some (n, .act i)
  | .submit n env cmd => some (n, .submit env cmd)
  | .poll k => match s.waiting[k]? with
    | some c => some (c.node, .poll c.index c.term)
    | none => none
  | .timeout k => match s.waiting[k]? with
    | some c => some (c.node, .timeout c.index)
    | none => none

/-- The calls in progress and the acknowledged ones, after the input ran. -/
def calls (s : Net) : NetInput → List Call × List Call
  | .submit n env cmd => match (beginSubmit deps env (s.nodes n) cmd).1 with
    | .ok (.Waiting index term) => (s.waiting ++ [⟨n, index, term, cmd⟩], s.acked)
    | .ok (.Acked ack) => (s.waiting, ⟨n, ack.index, ack.term, cmd⟩ :: s.acked)
    | .error _ => (s.waiting, s.acked)
  | .poll k => match s.waiting[k]? with
    | some c => match (pollSubmit (s.nodes c.node) c.index c.term).1 with
      | some _ => (s.waiting.eraseIdx k, c :: s.acked)
      | none => (s.waiting, s.acked)
    | none => (s.waiting, s.acked)
  | .timeout k => (s.waiting.eraseIdx k, s.acked)
  | _ => (s.waiting, s.acked)

def step (s : Net) (i : NetInput) : Net :=
  match s.target i with
  | some (n, j) =>
    if n ∈ cl.members then { s.run deps n j with waiting := (s.calls deps i).1, acked := (s.calls deps i).2 } else s
  | none => s

/-- What a step does to the engines and the messages: nothing, or one node
takes one input. -/
theorem step_cases (s : Net) (i : NetInput) :
    s.step deps cl i = s ∨ ∃ n j, s.target i = some (n, j) ∧ n ∈ cl.members ∧
      (s.step deps cl i).nodes = Function.update s.nodes n (nodeStep deps (s.nodes n) j).2 ∧
      (s.step deps cl i).sent = s.sent ++ (nodeStep deps (s.nodes n) j).1.map fun (dst, msg) => ⟨n, dst, msg⟩ := by
  unfold step
  cases ht : s.target i with
  | none => exact .inl rfl
  | some p =>
    obtain ⟨n, j⟩ := p
    by_cases hn : n ∈ cl.members
    · simp only [hn, if_true]
      exact .inr ⟨n, j, rfl, hn, rfl, rfl⟩
    · simp only [hn, if_false, true_or]

variable {cl} {s : Net} {i : NetInput}

/-- A message a node receives was sent to it. -/
theorem target_receive {n src : NodeId} {env : StepEnv} {msg : ReplicationMessage}
    (h : s.target i = some (n, .receive env src msg)) : ⟨src, n, msg⟩ ∈ s.sent := by
  cases i with
  | deliver k env' =>
    simp only [target] at h
    split at h
    · next m hm => cases h; exact mem_of_getElem? hm
    · cases h
  | poll k => simp only [target] at h; split at h <;> cases h
  | timeout k => simp only [target] at h; split at h <;> cases h
  | _ => cases h

/-- What a node finds in its inbox was sent to it. -/
theorem target_inbox {n : NodeId} {inbox : List ReplicationMessage}
    (h : s.target i = some (n, .startElection inbox)) {msg : ReplicationMessage} (hm : msg ∈ inbox) :
    ∃ src, ⟨src, n, msg⟩ ∈ s.sent := by
  cases i with
  | startElection n' ks =>
    cases h
    obtain ⟨k, -, hk⟩ := mem_filterMap.1 hm
    split at hk
    · next m hs =>
      split at hk
      · next hd =>
        cases hk
        subst hd
        exact ⟨m.src, mem_of_getElem? hs⟩
      · cases hk
    · cases hk
  | deliver k env' => simp only [target] at h; split at h <;> cases h
  | poll k => simp only [target] at h; split at h <;> cases h
  | timeout k => simp only [target] at h; split at h <;> cases h
  | _ => cases h

variable {c : Call}

/-- A call that waits after a step waited before it, or its submit just ran. -/
theorem step_waiting (h : c ∈ (s.step deps cl i).waiting) :
    c ∈ s.waiting ∨ ∃ env, c.node ∈ cl.members ∧ i = .submit c.node env c.cmd ∧
      (beginSubmit deps env (s.nodes c.node) c.cmd).1 = .ok (.Waiting c.index c.term) := by
  unfold step at h
  split at h
  · next n j ht =>
    split at h
    · next hn =>
      cases i with
      | submit n' env cmd =>
        cases ht
        simp only [calls] at h
        split at h
        · next index term hw =>
          rcases mem_append.1 h with h | h
          · exact .inl h
          · cases mem_singleton.1 h
            exact .inr ⟨env, hn, rfl, hw⟩
        · exact .inl h
        · exact .inl h
      | poll k =>
        simp only [calls] at h
        split at h
        · split at h
          · exact .inl (mem_of_mem_eraseIdx h)
          · exact .inl h
        · exact .inl h
      | timeout k => exact .inl (mem_of_mem_eraseIdx h)
      | _ => exact .inl h
    · exact .inl h
  · exact .inl h

/-- A call that is acknowledged after a step was so before it, or its submit
needed no other node, or it waited and its tally has a majority. -/
theorem step_acked (h : c ∈ (s.step deps cl i).acked) : c ∈ s.acked ∨
      (∃ env count total, c.node ∈ cl.members ∧ i = .submit c.node env c.cmd ∧
        (beginSubmit deps env (s.nodes c.node) c.cmd).1 = .ok (.Acked ⟨count, total, c.index, c.term⟩)) ∨
      (c ∈ s.waiting ∧ (s.nodes c.node).majority ≤ (s.nodes c.node).ackCount c.index) := by
  unfold step at h
  split at h
  · next n j ht =>
    split at h
    · next hn =>
      cases i with
      | submit n' env cmd =>
        cases ht
        simp only [calls] at h
        split at h
        · exact .inl h
        · next ack hw =>
          rcases mem_cons.1 h with rfl | h
          · exact .inr (.inl ⟨env, ack.ack_count, ack.total, hn, rfl, hw⟩)
          · exact .inl h
        · exact .inl h
      | poll k =>
        simp only [calls] at h
        split at h
        · next c' hk =>
          unfold pollSubmit at h
          split at h
          · next hp =>
            split at hp
            · next hm =>
              rcases mem_cons.1 h with rfl | h
              · exact .inr (.inr ⟨mem_of_getElem? hk, hm⟩)
              · exact .inl h
            · cases hp
          · exact .inl h
        · exact .inl h
      | _ => exact .inl h
    · exact .inl h
  · exact .inl h

/-- An acknowledged call stays acknowledged. -/
theorem acked_step (i : NetInput) (h : c ∈ s.acked) : c ∈ (s.step deps cl i).acked := by
  unfold step
  split
  · split
    · cases i with
      | submit n env cmd =>
        simp only [calls]
        split
        · exact h
        · exact mem_cons_of_mem _ h
        · exact h
      | poll k =>
        simp only [calls]
        split
        · split
          · exact mem_cons_of_mem _ h
          · exact h
        · exact h
      | _ => exact h
    · exact h
  · exact h

end Net

end FerroDruid.Cluster
