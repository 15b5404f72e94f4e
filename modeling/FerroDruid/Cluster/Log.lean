import FerroDruid.Cluster.Network
/-!
# The log of one node

`LogView` is the part of an engine that holds its log: the last index, the
commands, their terms, and what the state machine was given. `nodeStep_log`
says everything an operation can do to it.
-/

namespace FerroDruid.Cluster

open FerroDruid.Lib ReplicationEngine List

variable (deps : Deps)

/-! ## Numbered commands -/

/-- The entries of a log that starts at index 1. -/
def numbered (cmds : List ClusterCommand) : List (Nat × ClusterCommand) := (cmds.zipIdx 1).map fun (c, i) => (i, c)

@[simp] theorem numbered_append (cmds : List ClusterCommand) (c : ClusterCommand) :
    numbered (cmds ++ [c]) = numbered cmds ++ [(cmds.length + 1, c)] := by
  simp [numbered, zipIdx_append, Nat.add_comm]

variable {cmds : List ClusterCommand} {i : Nat} {c : ClusterCommand}

theorem mem_numbered : (i, c) ∈ numbered cmds ↔ 1 ≤ i ∧ cmds[i - 1]? = some c := by
  simp only [numbered, mem_map, Prod.mk.injEq, Prod.exists]
  constructor
  · rintro ⟨a, k, hk, rfl, rfl⟩
    obtain ⟨h1, h2⟩ := mk_mem_zipIdx_iff_le_and_getElem?_sub.1 hk
    exact ⟨h1, h2⟩
  · rintro ⟨h1, h2⟩
    exact ⟨c, i, mk_mem_zipIdx_iff_le_and_getElem?_sub.2 ⟨h1, h2⟩, rfl, rfl⟩

variable {k : Nat}

theorem mem_numbered_take : (i, c) ∈ numbered (cmds.take k) ↔ i ≤ k ∧ (i, c) ∈ numbered cmds := by
  rw [mem_numbered, mem_numbered, getElem?_take]
  constructor
  · rintro ⟨h1, h2⟩
    split at h2
    · exact ⟨by omega, h1, h2⟩
    · cases h2
  · rintro ⟨hk, h1, h2⟩
    exact ⟨h1, by rw [if_pos (by omega), h2]⟩

theorem numbered_mono {cmds' : List ClusterCommand} (h : cmds <+: cmds')
    (hc : (i, c) ∈ numbered cmds) : (i, c) ∈ numbered cmds' := by
  obtain ⟨rest, rfl⟩ := h
  rw [mem_numbered] at hc ⊢
  obtain ⟨hlt, -⟩ := List.getElem?_eq_some_iff.1 hc.2
  exact ⟨hc.1, by rw [getElem?_append_left hlt, hc.2]⟩

/-- The index decides the command. -/
theorem numbered_unique {c' : ClusterCommand} (h : (i, c) ∈ numbered cmds)
    (h' : (i, c') ∈ numbered cmds) : c = c' := by
  rw [mem_numbered] at h h'
  exact Option.some.inj (h.2.symm.trans h'.2)

/-! ## A log and its continuation -/

/-- Entries as their term and command. -/
abbrev Entries := List (Nat × ClusterCommand)

def LogView.pushAll (l : LogView) (es : Entries) : LogView := es.foldl (fun l e => l.push e.1 e.2) l

/-- The term table reaches the last index, and no command lies above it. -/
structure LogView.Tight (l : LogView) : Prop where
  terms : l.log_terms.length = l.last_index
  bound : ∀ e ∈ l.command_log, e.1 ≤ l.last_index

/-- The entries of `es` at the indices after `k`, as `build_replay_batch` gives
them. -/
def indexed (k : Nat) : Entries → List (Nat × Nat × ClusterCommand)
  | [] => []
  | (t, c) :: es => (t, k + 1, c) :: indexed (k + 1) es

variable (l : LogView) (es : Entries)

theorem pushAll_last_index : (l.pushAll es).last_index = l.last_index + es.length := by
  induction es generalizing l with
  | nil => rfl
  | cons e es ih =>
    have h := ih (l.push e.1 e.2)
    rw [length_cons]
    simp only [LogView.pushAll, foldl_cons] at h ⊢
    rw [h]
    simp only [LogView.push]
    omega

theorem pushAll_log_terms : (l.pushAll es).log_terms = l.log_terms ++ es.map Prod.fst := by
  induction es generalizing l with
  | nil => simp [LogView.pushAll]
  | cons e es ih =>
    have h := ih (l.push e.1 e.2)
    simp only [LogView.pushAll, foldl_cons] at h ⊢
    rw [h]
    simp [LogView.push]

theorem pushAll_command_log :
    (l.pushAll es).command_log = l.command_log ++ (indexed l.last_index es).map Prod.snd := by
  induction es generalizing l with
  | nil => simp [LogView.pushAll, indexed]
  | cons e es ih =>
    have h := ih (l.push e.1 e.2)
    simp only [LogView.pushAll, foldl_cons] at h ⊢
    rw [h]
    simp [LogView.push, indexed]

theorem pushAll_append (fs : Entries) : l.pushAll (es ++ fs) = (l.pushAll es).pushAll fs :=
  foldl_append

theorem push_tight {l : LogView} (h : l.Tight) (t : Nat) (c : ClusterCommand) : (l.push t c).Tight := by
  refine ⟨by simp [LogView.push, h.terms], ?_⟩
  intro e he
  rw [LogView.push, mem_append, mem_singleton] at he
  rcases he with he | rfl
  · exact (h.bound e he).trans (Nat.le_succ _)
  · exact le_rfl

theorem pushAll_tight {l : LogView} (h : l.Tight) (es : Entries) : (l.pushAll es).Tight := by
  induction es generalizing l with
  | nil => exact h
  | cons e es ih => exact ih (push_tight h e.1 e.2)

theorem length_indexed (k : Nat) (es : Entries) : (indexed k es).length = es.length := by
  induction es generalizing k with
  | nil => rfl
  | cons e es ih => rw [indexed, length_cons, ih, length_cons]

theorem take_indexed (n k : Nat) (es : Entries) : (indexed k es).take n = indexed k (es.take n) := by
  induction es generalizing n k with
  | nil => simp [indexed]
  | cons e es ih => cases n with
    | zero => rfl
    | succ n => rw [indexed, take_succ_cons, ih, take_succ_cons, indexed]

theorem indexed_append (k : Nat) (es fs : Entries) :
    indexed k (es ++ fs) = indexed k es ++ indexed (k + es.length) fs := by
  induction es generalizing k with
  | nil => rfl
  | cons e es ih =>
    rw [cons_append, indexed, indexed, ih, length_cons, cons_append]
    congr 3
    omega

theorem mem_indexed {es : Entries} {t : Nat} :
    (t, i, c) ∈ indexed k es ↔ k < i ∧ es[i - (k + 1)]? = some (t, c) := by
  induction es generalizing k with
  | nil => simp [indexed]
  | cons e es ih =>
    rw [indexed, mem_cons, ih]
    constructor
    · rintro (h | ⟨hk, h⟩)
      · cases h
        exact ⟨Nat.lt_succ_self k, by simp⟩
      · obtain ⟨d, rfl⟩ : ∃ d, i = k + 2 + d := ⟨i - (k + 2), by omega⟩
        have h1 : k + 2 + d - (k + 1 + 1) = d := by omega
        have h2 : k + 2 + d - (k + 1) = d + 1 := by omega
        rw [h1] at h
        exact ⟨by omega, by rw [h2, getElem?_cons_succ, h]⟩
    · rintro ⟨hk, h⟩
      by_cases hi : i = k + 1
      · subst hi
        rw [Nat.sub_self, getElem?_cons_zero] at h
        cases h
        exact .inl rfl
      · obtain ⟨d, rfl⟩ : ∃ d, i = k + 2 + d := ⟨i - (k + 2), by omega⟩
        have h1 : k + 2 + d - (k + 1 + 1) = d := by omega
        have h2 : k + 2 + d - (k + 1) = d + 1 := by omega
        rw [h2, getElem?_cons_succ] at h
        exact .inr ⟨by omega, by rw [h1, h]⟩

theorem indexed_indices (k : Nat) (es : Entries) :
    (indexed k es).map (fun e => e.2.1) = List.range' (k + 1) es.length := by
  induction es generalizing k with
  | nil => rfl
  | cons e es ih => rw [indexed, map_cons, ih, length_cons, range'_succ]

/-! ## What an operation does to the log -/

/-- Every change an input can make to the log. -/
inductive LogStep (e : ReplicationEngine) (i : NodeInput) : LogView → Prop
  | quiet : LogStep e i e.log
  | submitted (env : StepEnv) (cmd : ClusterCommand) (hi : i = .submit env cmd) (hl : e.role = .Leader) :
      LogStep e i (e.log.push e.current_term cmd)
  | received (env : StepEnv) (s : NodeId) (t : Nat) (cmd : ClusterCommand)
      (hi : i = .receive env s (.ReplicateCommand t (e.last_index + 1) cmd)) (ht : e.current_term ≤ t) :
      LogStep e i (e.log.push t cmd)
  | restored (sn : ClusterSnapshot) (li t : Nat) (h : installed deps e i = some (sn, li, t)) :
      LogStep e i (e.log.rebase li t)

variable {deps} in
theorem LogStep.of_eq {e : ReplicationEngine} {i : NodeInput} {l : LogView} (h : l = e.log) : LogStep deps e i l :=
  h ▸ .quiet

variable (env : StepEnv) (e : ReplicationEngine)

theorem receiveCommand_log (term index : Nat) (cmd : ClusterCommand) :
    (receiveCommand deps env e term index cmd).2.log =
      if e.current_term ≤ term ∧ index = e.last_index + 1 then e.log.push term cmd else e.log :=
  (congrArg Holdings.log (receiveCommand_holdings deps env e term index cmd)).trans (apply_ite _ _ _ _)

variable {index : Nat} {cmd : ClusterCommand}

/-- An accepted command is in the log afterwards. -/
theorem receiveCommand_ok {env : StepEnv} {e : ReplicationEngine} {term : Nat}
    (h : (receiveCommand deps env e term index cmd).1.toBool = true) :
    index ≤ (receiveCommand deps env e term index cmd).2.last_index := by
  have hlog : (receiveCommand deps env e term index cmd).2.last_index = _ :=
    congrArg LogView.last_index (receiveCommand_log deps env e term index cmd)
  rw [hlog]
  split
  · next hc => exact hc.2.le
  · next hc =>
    -- Neither stale nor ahead: the entry was there already.
    by_contra hle
    have hle : ¬ index ≤ e.last_index := hle
    unfold receiveCommand at h
    by_cases ht : term < e.current_term
    · rw [if_pos ht] at h
      cases h
    · have hgap : index > e.last_index + 1 := by omega
      simp only [ht, hle, hgap, if_true, if_false] at h
      cases h

theorem restoreSnapshot_log (sn : ClusterSnapshot) (last_index term : Nat) :
    (restoreSnapshot deps e sn last_index term).2.log =
      if last_index > MAX_SNAPSHOT_LOG_INDEX then e.log else e.log.rebase last_index term :=
  (congrArg Holdings.log (restoreSnapshot_holdings deps e sn last_index term)).trans (apply_ite _ _ _ _)

theorem handleSnapshotChunk_log (c : SnapshotChunk) :
    (handleSnapshotChunk deps e c).2.log = match installs deps e c with
      | some (_, li, t) => e.log.rebase li t
      | none => e.log := by
  have h := congrArg Holdings.log (handleSnapshotChunk_holdings deps e c)
  have hb := congrArg Holdings.log (buffered_holdings e c)
  refine h.trans ?_
  cases installs deps e c with
  | none => exact hb
  | some r => exact congrArg (LogView.rebase · r.2.1 r.2.2) hb

theorem beginSubmit_log (cmd : ClusterCommand) :
    (beginSubmit deps env e cmd).2.log = if e.role = .Leader then e.log.push e.current_term cmd else e.log :=
  (congrArg Holdings.log (beginSubmit_holdings deps env e cmd)).trans (apply_ite _ _ _ _)

theorem receive_snapshotResponse_log (s : NodeId) (sn : ClusterSnapshot) (li t : Nat) :
    (receive deps env e s (.SnapshotResponse sn li t)).2.log = (restoreSnapshot deps e sn li t).2.log :=
  congrArg Holdings.log (receive_snapshotResponse deps env e s sn li t)

/-- What an input does to the log of a node. -/
theorem nodeStep_log (i : NodeInput) : LogStep deps e i (nodeStep deps e i).2.log := by
  by_cases hreach : Reaches i
  swap
  · exact .of_eq (congrArg Holdings.log (nodeStep_holdings deps e hreach))
  cases hreach with
  | command env s t index cmd =>
    have h := receiveCommand_log deps env e t index cmd
    simp only [nodeStep, receive, processReplicateCommand]
    by_cases hc : e.current_term ≤ t ∧ index = e.last_index + 1
    · obtain ⟨ht, rfl⟩ := hc
      rw [h, if_pos ⟨ht, rfl⟩]
      exact .received env s t cmd rfl ht
    · rw [h, if_neg hc]
      exact .quiet
  | snapshot env s sn li t =>
    simp only [nodeStep, receive_snapshotResponse_log, restoreSnapshot_log]
    by_cases hl : li > MAX_SNAPSHOT_LOG_INDEX
    · rw [if_pos hl]; exact .quiet
    · rw [if_neg hl]; exact .restored sn li t (by simp only [installed, hl, if_false])
  | chunk env s c =>
    simp only [nodeStep, receive_snapshotChunk, handleSnapshotChunk_log]
    cases hi : installs deps e c with
    | none => exact .quiet
    | some r => exact .restored r.1 r.2.1 r.2.2 (by simp only [installed, hi])
  | chunkAck env s f t l applied =>
    simp only [nodeStep, receive, receiveSnapshotChunkAck]
    split_ifs <;> exact .of_eq rfl
  | submit env cmd =>
    simp only [nodeStep, beginSubmit_log]
    split
    · next hl => exact .submitted env cmd rfl hl
    · exact .quiet

/-- Without a restored snapshot the log only grows. -/
theorem nodeStep_last_index {e : ReplicationEngine} {i : NodeInput} (h : installed deps e i = none) :
    e.last_index ≤ (nodeStep deps e i).2.last_index := by
  have key : ∀ l, LogStep deps e i l → e.last_index ≤ l.last_index := by
    intro l hl
    cases hl with
    | quiet => exact le_rfl
    | submitted env cmd hi hr => exact Nat.le_succ _
    | received env s t cmd hi ht => exact Nat.le_succ _
    | restored sn li t hr => rw [h] at hr; cases hr
  exact key _ (nodeStep_log deps e i)

variable {f : NodeId}

theorem mem_buildReplayBatch {e : ReplicationEngine} {term : Nat}
    (h : (term, index, cmd) ∈ e.buildReplayBatch f) : (index, cmd) ∈ e.command_log := by
  unfold buildReplayBatch at h
  simp only at h
  split at h
  · cases h
  · obtain ⟨⟨i, c⟩, hc, he⟩ := mem_filterMap.1 (mem_of_mem_take h)
    split at he
    · cases he
    · obtain ⟨t, -, ht⟩ := Option.map_eq_some_iff.1 he
      cases ht
      exact hc

/-- A submit that started has appended at the next index. -/
theorem beginSubmit_ok {env : StepEnv} {e : ReplicationEngine} {r : Submitted}
    (h : (beginSubmit deps env e cmd).1 = .ok r) : e.role = .Leader ∧
      ((∃ count total, r = .Acked ⟨count, total, e.last_index + 1, e.current_term⟩ ∧ e.majority = 1) ∨
        r = .Waiting (e.last_index + 1) e.current_term) := by
  unfold beginSubmit isLeader at h
  by_cases hl : e.role = .Leader
  · refine ⟨hl, ?_⟩
    simp only [hl, decide_true, not_true_eq_false, if_false] at h
    split at h
    · cases h
    · split at h
      · next hm => cases h; exact .inl ⟨_, _, rfl, hm⟩
      · cases h; exact .inr rfl
  · simp only [hl, decide_false, Bool.false_eq_true, not_false_eq_true, if_true] at h
    cases h

/-! ## Acknowledgements -/

theorem mem_getD_erase {acks : HashMap Nat (Finset NodeId)}
    (h : f ∈ HashMap.getD (acks.erase k) index ∅) : f ∈ acks.getD index ∅ := by
  unfold HashMap.getD at h ⊢
  by_cases hk : index = k
  · subst hk
    rw [AList.lookup_erase] at h
    exact absurd h (Finset.notMem_empty f)
  · rwa [AList.lookup_erase_ne hk] at h

theorem receiveReplicateAck_pending {e : ReplicationEngine} {g : NodeId} {success : Bool}
    {hint : Option Nat} (h : f ∈ (receiveReplicateAck e g k success hint).pending_acks.getD index ∅) :
    f ∈ e.pending_acks.getD index ∅ ∨ (f ∈ e.config.peers ∧ f = g ∧ index = k ∧ success = true) := by
  unfold receiveReplicateAck at h
  split at h
  · exact .inl h
  · next hg =>
    simp only [not_not] at hg
    split at h
    · next hs =>
      split at h
      · next set hset =>
        unfold HashMap.getD at h ⊢
        by_cases hk : index = k
        · subst hk
          rw [AList.lookup_insert, Option.getD_some, Finset.mem_insert] at h
          rcases h with rfl | h
          · exact .inr ⟨hg, rfl, rfl, hs⟩
          · exact .inl (by rw [hset]; exact h)
        · rw [AList.lookup_insert_ne hk] at h
          exact .inl h
      · exact .inl h
    · exact .inl h

theorem beginSubmit_pending {env : StepEnv} {e : ReplicationEngine}
    (h : f ∈ (beginSubmit deps env e cmd).2.pending_acks.getD index ∅) : f ∈ e.pending_acks.getD index ∅ := by
  unfold beginSubmit at h
  simp only at h
  split at h
  · exact h
  · split at h
    · exact h
    · split at h
      · exact mem_getD_erase h
      · -- The tally of the new index starts empty, or stays as it was.
        simp only [HashMap.getD] at h ⊢
        by_cases hk : index = e.last_index + 1
        · subst hk
          rw [AList.lookup_insert, Option.getD_some] at h
          exact h
        · rw [AList.lookup_insert_ne hk] at h
          exact h

theorem receive_pending {env : StepEnv} {e : ReplicationEngine} {s : NodeId} {msg : ReplicationMessage}
    (h : f ∈ (receive deps env e s msg).2.pending_acks.getD index ∅) :
    f ∈ e.pending_acks.getD index ∅ ∨ (f ∈ e.config.peers ∧ ∃ hint, msg = .ReplicateAck f index true hint) := by
  cases msg with
  | ReplicateAck g k success hint =>
    rcases receiveReplicateAck_pending h with h | ⟨hp, rfl, rfl, rfl⟩
    · exact .inl h
    · exact .inr ⟨hp, hint, rfl⟩
  | Heartbeat l t =>
    simp only [receive, receiveHeartbeat] at h
    split at h <;> exact .inl h
  | VoteRequest c t =>
    simp only [receive, receiveVoteRequest] at h
    split_ifs at h <;> exact .inl h
  | VoteResponse w t granted =>
    have hv : (receiveVoteResponse e w t granted).2.pending_acks = e.pending_acks := by
      unfold receiveVoteResponse recordVote
      split_ifs <;> rfl
    rw [← hv]
    simp only [receive, tryPromoteToLeader] at h
    split at h
    · split at h
      · exact .inl h
      · split at h <;> exact .inl h
    · exact .inl h
  | ReplicateCommand t k cmd =>
    have hc : (receiveCommand deps env e t k cmd).2.pending_acks = e.pending_acks := by
      unfold receiveCommand
      simp only
      split_ifs
      · rfl
      · split
        · split <;> rfl
        · rfl
      · rfl
      · split <;> rfl
    simp only [receive, processReplicateCommand, hc] at h
    exact .inl h
  | SnapshotResponse sn li t =>
    simp only [receive, handleSnapshotResponse, restoreSnapshot] at h
    split_ifs at h <;> exact .inl h
  | Join n addr =>
    simp only [receive, handleJoin] at h
    split at h <;> exact .inl h
  | RequestPreVoteResponse w t granted r =>
    simp only [receive, receivePreVoteResponse, recordPreVote] at h
    split_ifs at h <;> exact .inl h
  | SnapshotChunk c =>
    have hb : (buffered e c).pending_acks = e.pending_acks := by
      unfold buffered reassemble
      simp only
      split_ifs <;> rfl
    have hc : (handleSnapshotChunk deps e c).2.pending_acks = e.pending_acks := by
      cases hi : installs deps e c with
      | none => rw [(handleSnapshotChunk_none deps hi).1, hb]
      | some r =>
        rw [(handleSnapshotChunk_some deps hi).2, ← hb]
        unfold restoreSnapshot
        split <;> rfl
    simp only [receive] at h
    split at h <;> (next he => rw [he] at hc; rw [hc] at h; exact .inl h)
  | SnapshotChunkAck g tid l applied =>
    simp only [receive, receiveSnapshotChunkAck] at h
    split_ifs at h <;> exact .inl h
  | SnapshotRequest g => exact .inl h
  | RequestPreVote c t r => exact .inl h

/-- An acknowledgement in the tally of an index was there before, or just came
from a peer. -/
theorem nodeStep_pending {e : ReplicationEngine} {i : NodeInput}
    (h : f ∈ (nodeStep deps e i).2.pending_acks.getD index ∅) :
    f ∈ e.pending_acks.getD index ∅ ∨
      (f ∈ e.config.peers ∧ ∃ env s hint, i = .receive env s (.ReplicateAck f index true hint)) := by
  cases i with
  | receive env s msg =>
    rcases receive_pending deps h with h | ⟨hp, hint, rfl⟩
    · exact .inl h
    · exact .inr ⟨hp, env, s, hint, rfl⟩
  | startElection inbox =>
    obtain ⟨votes, hvotes⟩ := recordInbox_frame inbox (becomeCandidate e)
    simp only [nodeStep, startElection, hvotes] at h
    split_ifs at h <;> exact .inl h
  | act i =>
    have ha : (armElection e).2.pending_acks = e.pending_acks := by
      unfold armElection
      simp only
      split <;> rfl
    cases i with
    | tick env =>
      have hf : (armFromTick env e).pending_acks = e.pending_acks := ha
      simp only [nodeStep, localStep, tick] at h
      split_ifs at h <;> first | exact .inl h | (rw [hf] at h; exact .inl h)
    | armElection =>
      simp only [nodeStep, localStep, ha] at h
      exact .inl h
    | sendChunks g tid st sz =>
      simp only [nodeStep, localStep] at h
      split at h <;> exact .inl h
    | _ => exact .inl h
  | submit env cmd => exact .inl (beginSubmit_pending deps h)
  | poll k term =>
    simp only [nodeStep, pollSubmit] at h
    split at h
    · exact .inl (mem_getD_erase h)
    · exact .inl h
  | timeout k => exact .inl (mem_getD_erase h)

end FerroDruid.Cluster
