import FerroDruid.Cluster.Log
import FerroDruid.Cluster.Voting
/-!
# The shape of the log

A log is kept in three places: the commands with their indices, the table of
terms, and the last index. `Tracked` runs an engine next to the entries it
holds by right, those accepted since the last restored snapshot, and
`log_shape` says that the three agree with them in every run that restores
snapshots only over an empty command log and attaches only state that
continues the log.

Restoring a snapshot rewinds the last index and the term table and leaves the
commands, so without the first condition old commands come back at indices
that have new entries.
-/

namespace FerroDruid.Cluster

open FerroDruid.Lib ReplicationEngine List

variable (deps : Deps)

/-- What can happen to the log of a node: any operation of the running node, a
restore called directly, and the attachment of its state directory. -/
inductive LogInput where
  | node (i : NodeInput)
  | restore (snapshot : ClusterSnapshot) (last_index term : Nat)
  | attach (env : Nat → ApplyEnv) (state : PersistentRaftState)

/-- An engine with the last index of the snapshot it restored last, and the
entries it took since, as `build_replay_batch` gives them. -/
structure Tracked where
  engine : ReplicationEngine
  base : Nat
  current : List (Nat × Nat × ClusterCommand)

/-- The entry an input adds to the log: the leader's own, or the next one of a
leader whose term is not stale. -/
def accepted (e : ReplicationEngine) : NodeInput → Option (Nat × ClusterCommand)
  | .submit _ cmd => if e.role = .Leader then some (e.current_term, cmd) else none
  | .receive _ _ (.ReplicateCommand term index cmd) =>
    if e.current_term ≤ term ∧ index = e.last_index + 1 then some (term, cmd) else none
  | _ => none

/-- The entries a replay pushes: those up to the first that the state machine
refuses. -/
def replayed (chrono : Chrono) : (Nat → ApplyEnv) → ClusterManager → List PersistedEntry → List PersistedEntry
  | _, _, [] => []
  | env, m, entry :: entries =>
    if (apply chrono (env 0) m entry.command).1.toBool then
      entry :: replayed chrono (fun n => env (n + 1)) (apply chrono (env 0) m entry.command).2 entries
    else [entry]

/-- The state machine a snapshot on disk puts in place. -/
def machineOf (m : ClusterManager) : Option PersistedSnapshot → ClusterManager
  | some s => restore m s.snapshot
  | none => m

def trackStep (s : Tracked) : LogInput → Tracked
  | .node i =>
    let engine := (nodeStep deps s.engine i).2
    match installed deps s.engine i, accepted s.engine i with
    | some (_, last_index, _), _ => { engine, base := last_index, current := [] }
    | none, some (term, cmd) => { s with engine, current := s.current ++ [(term, s.engine.last_index + 1, cmd)] }
    | none, none => { s with engine }
  | .restore snapshot last_index term =>
    let engine := (restoreSnapshot deps s.engine snapshot last_index term).2
    if last_index > MAX_SNAPSHOT_LOG_INDEX then { s with engine } else { engine, base := last_index, current := [] }
  | .attach env state =>
    let engine := (attachPersistentState deps env s.engine state).2
    match state.replay deps with
    | .error _ => { s with engine }
    | .ok (snapshot, entries, _) =>
      let pushed := (replayed deps.chrono env (machineOf s.engine.cluster_manager snapshot) entries).map fun entry =>
        (entry.term, entry.index, entry.command)
      match snapshot with
      | some sn => { engine, base := sn.last_index, current := pushed }
      | none => { s with engine, current := s.current ++ pushed }

/-- The newest entry taken at an index since the last restored snapshot. -/
def Tracked.entryAt (s : Tracked) (index : Nat) : Option (Nat × Nat × ClusterCommand) :=
  s.current.reverse.find? fun e => e.2.1 = index

/-- The three parts of the log agree, and whatever the cursors of the followers
are, a replay sends only current entries. -/
structure LogShape (s : Tracked) : Prop where
  terms : s.engine.log_terms.length = s.engine.last_index
  increasing : (s.engine.command_log.map Prod.fst).Pairwise (· < ·)
  bound : ∀ e ∈ s.engine.command_log, e.1 ≤ s.engine.last_index
  complete : ∀ i, s.base < i → i ≤ s.engine.last_index → (s.engine.command_log.map Prod.fst).count i = 1
  replay : ∀ next_index f, ∀ e ∈ buildReplayBatch { s.engine with next_index } f, s.entryAt e.2.1 = some e

/-- A snapshot is restored only over an empty command log, and state that is
attached continues the log without a gap and its meta does not run ahead. -/
def KeepsShape (s : Tracked) : LogInput → Prop
  | .node i => installed deps s.engine i ≠ none → s.engine.command_log = []
  | .restore _ last_index _ => last_index ≤ MAX_SNAPSHOT_LOG_INDEX → s.engine.command_log = []
  | .attach _ state => match state.replay deps with
    | .error _ => True
    | .ok (snapshot, entries, raft_meta) =>
      let start := (snapshot.map (·.last_index)).getD s.engine.last_index
      (snapshot.isSome → s.engine.command_log = []) ∧
        entries.map (·.index) = List.range' (start + 1) entries.length ∧
        raft_meta.last_index ≤ start + entries.length

/-! ## What each input does to the log -/

theorem nodeStep_log_eq (e : ReplicationEngine) (i : NodeInput) :
    (nodeStep deps e i).2.log = match installed deps e i, accepted e i with
      | some (_, last_index, term), _ => e.log.rebase last_index term
      | none, some (term, cmd) => e.log.push term cmd
      | none, none => e.log := by
  cases hi : installed deps e i with
  | some r =>
    unfold installed at hi
    split at hi
    · split at hi
      · cases hi
      · next hl =>
        cases hi
        simp only [nodeStep, receive_snapshotResponse_log, restoreSnapshot_log, hl, if_false]
    · simp only [nodeStep, receive_snapshotChunk, handleSnapshotChunk_log, hi]
    · cases hi
  | none => cases ha : accepted e i with
    | some p =>
      unfold accepted at ha
      split at ha
      · split at ha
        · next hr =>
          cases ha
          simp only [nodeStep, beginSubmit_log, hr, if_true]
        · cases ha
      · split at ha
        · next hr =>
          cases ha
          simp only [nodeStep, receive, processReplicateCommand, receiveCommand_log, hr, and_self, if_true]
        · cases ha
      · cases ha
    | none =>
      have key : ∀ l, LogStep deps e i l → l = e.log := by
        intro l hl
        cases hl with
        | quiet => rfl
        | submitted env cmd he hr => simp only [he, accepted, hr, if_true, reduceCtorEq] at ha
        | received env s t cmd he ht => simp only [he, accepted, ht, and_self, if_true, reduceCtorEq] at ha
        | restored sn li t h => rw [hi] at h; cases h
      exact key _ (nodeStep_log deps e i)

variable (env : Nat → ApplyEnv)

/-- The log after the replay of entries that follow it. -/
theorem replayEntries_log (e : ReplicationEngine) (entries : List PersistedEntry)
    (h : entries.map (·.index) = List.range' (e.last_index + 1) entries.length) :
    (replayEntries deps env e entries).2.log = e.log.pushAll
        ((replayed deps.chrono env e.cluster_manager entries).map fun entry => (entry.term, entry.command)) ∧
      ((replayEntries deps env e entries).1 = .ok () → replayed deps.chrono env e.cluster_manager entries = entries) := by
  induction entries generalizing env e with
  | nil => exact ⟨rfl, fun _ => rfl⟩
  | cons entry entries ih =>
    rw [map_cons, length_cons, range'_succ, List.cons.injEq] at h
    obtain ⟨hi, h⟩ := h
    cases ha : (apply deps.chrono (env 0) e.cluster_manager entry.command).1 with
    | error err =>
      simp only [replayEntries, replayed, applyCommand, ha, Except.toBool]
      refine ⟨?_, nofun⟩
      simp only [ReplicationEngine.log, LogView.pushAll, LogView.push, hi, Bool.false_eq_true, if_false, map_cons,
        map_nil, foldl_cons, foldl_nil]
    | ok r =>
      simp only [replayEntries, replayed, applyCommand, ha, Except.toBool, if_true]
      rw [hi]
      obtain ⟨hlog, hall⟩ := ih (fun n => env (n + 1))
        { e with
          command_log := e.command_log ++ [(e.last_index + 1, entry.command)]
          log_terms := e.log_terms ++ [entry.term]
          last_index := e.last_index + 1
          cluster_manager := (apply deps.chrono (env 0) e.cluster_manager entry.command).2
          history := { e.history with applied := e.history.applied ++ [entry.command] } } h
      exact ⟨hlog, fun hok => congrArg _ (hall hok)⟩

/-- The end of an attachment keeps a last index the replay has reached. -/
theorem max_last_index {r : ReplicationEngine} {n : Nat} (h : n ≤ r.last_index) (term : Nat) (voted : Option NodeId)
    (state : PersistentRaftState) :
    ReplicationEngine.log { r with
      current_term := term
      voted_for := voted
      last_index := max n r.last_index
      persistent_state := some state } = r.log := by
  simp only [ReplicationEngine.log, max_eq_right h]

/-- The log a snapshot on disk puts in place. -/
def LogView.onto (l : LogView) : Option PersistedSnapshot → LogView
  | some s => l.rebase s.last_index s.term
  | none => l

variable {e : ReplicationEngine} {state : PersistentRaftState} {entries : List PersistedEntry}

/-- Attaching replays the entries into the engine with the snapshot in place. -/
theorem attachPersistentState_cases {snapshot : Option PersistedSnapshot} {raft_meta : PersistedMeta}
    (hr : state.replay deps = .ok (snapshot, entries, raft_meta)) :
    ∃ restored : ReplicationEngine, restored.log = e.log.onto snapshot ∧
      restored.cluster_manager = machineOf e.cluster_manager snapshot ∧
      let r := replayEntries deps env restored entries
      (∃ err, r.1 = .error err ∧ (attachPersistentState deps env e state).2 = r.2) ∨
        (r.1 = .ok () ∧ (attachPersistentState deps env e state).2 =
          { r.2 with
            current_term := max raft_meta.current_term r.2.current_term
            voted_for := raft_meta.voted_for
            last_index := max raft_meta.last_index r.2.last_index
            persistent_state := some state }) := by
  unfold attachPersistentState
  simp only [hr]
  cases snapshot with
  | none =>
    refine ⟨e, rfl, rfl, ?_⟩
    cases h : (replayEntries deps env e entries).1 with
    | error err => exact .inl ⟨err, rfl, rfl⟩
    | ok u => exact .inr ⟨rfl, rfl⟩
  | some s =>
    refine ⟨{ e with
      cluster_manager := restore e.cluster_manager s.snapshot
      last_index := s.last_index
      log_terms := List.replicate s.last_index s.term }, rfl, rfl, ?_⟩
    generalize replayEntries deps env _ entries = r
    cases h : r.1 with
    | error err => exact .inl ⟨err, rfl, rfl⟩
    | ok u => exact .inr ⟨rfl, rfl⟩

theorem attachPersistentState_log {snapshot : Option PersistedSnapshot} {raft_meta : PersistedMeta}
    (hr : state.replay deps = .ok (snapshot, entries, raft_meta))
    (hi : entries.map (·.index) =
      List.range' ((snapshot.map (·.last_index)).getD e.last_index + 1) entries.length)
    (hm : raft_meta.last_index ≤ (snapshot.map (·.last_index)).getD e.last_index + entries.length) :
    (attachPersistentState deps env e state).2.log = (e.log.onto snapshot).pushAll
      ((replayed deps.chrono env (machineOf e.cluster_manager snapshot) entries).map fun entry =>
        (entry.term, entry.command)) := by
  obtain ⟨restored, hlog, hmach, hcases⟩ := @attachPersistentState_cases deps env e _ _ _ _ hr
  have hlast : restored.last_index = (snapshot.map (·.last_index)).getD e.last_index := by
    have hl : restored.last_index = (e.log.onto snapshot).last_index := congrArg LogView.last_index hlog
    rw [hl]
    cases snapshot <;> rfl
  obtain ⟨h, hall⟩ := replayEntries_log deps env restored entries (by rw [hlast]; exact hi)
  rw [hlog, hmach] at h
  rcases hcases with ⟨err, -, hattach⟩ | ⟨ho, hattach⟩
  · rw [hattach]
    exact h
  · have hend := congrArg LogView.last_index h
    rw [pushAll_last_index, length_map, ← hmach, hall ho] at hend
    have hstart : (e.log.onto snapshot).last_index = restored.last_index := congrArg LogView.last_index hlog.symm
    have hle : raft_meta.last_index ≤ (replayEntries deps env restored entries).2.last_index := by
      have : (replayEntries deps env restored entries).2.last_index = _ := hend
      omega
    rw [hattach, max_last_index hle, h]

theorem replayed_indexed (chrono : Chrono) (env : Nat → ApplyEnv) (m : ClusterManager)
    {k : Nat} (h : entries.map (·.index) = List.range' (k + 1) entries.length) :
    ((replayed chrono env m entries).map fun entry => (entry.term, entry.index, entry.command)) =
      indexed k ((replayed chrono env m entries).map fun entry => (entry.term, entry.command)) := by
  induction entries generalizing env m k with
  | nil => rfl
  | cons entry entries ih =>
    rw [map_cons, length_cons, range'_succ, List.cons.injEq] at h
    obtain ⟨hi, h⟩ := h
    unfold replayed
    split
    · rw [map_cons, map_cons, indexed, ih _ _ h, hi]
    · rw [map_cons, map_cons, indexed, hi]
      rfl

/-! ## The invariant -/

/-- Above `base` the log holds the entries `es`; below it only terms are
known. -/
def LogView.Holds (l : LogView) (base : Nat) (es : Entries) : Prop :=
  l.last_index = base + es.length ∧ l.command_log = (indexed base es).map Prod.snd ∧
    ∃ below, below.length = base ∧ l.log_terms = below ++ es.map Prod.fst

variable {l : LogView} {base : Nat} {es : Entries}

theorem LogView.Holds.push (h : l.Holds base es) (t : Nat)
    (c : ClusterCommand) : (l.push t c).Holds base (es ++ [(t, c)]) := by
  obtain ⟨hlast, hcmds, below, hlen, hterms⟩ := h
  refine ⟨?_, ?_, below, hlen, ?_⟩
  · rw [LogView.push, hlast, length_append]
    rfl
  · rw [LogView.push, indexed_append, map_append, hcmds, hlast]
    rfl
  · rw [LogView.push, hterms, append_assoc, map_append]
    rfl

theorem LogView.Holds.pushAll (h : l.Holds base es) (fs : Entries) :
    (l.pushAll fs).Holds base (es ++ fs) := by
  induction fs generalizing l es with
  | nil =>
    rw [append_nil]
    exact h
  | cons f fs ih =>
    have hp := ih (h.push f.1 f.2)
    rw [append_assoc, singleton_append] at hp
    exact hp

theorem LogView.holds_rebase (h : l.command_log = []) (last_index term : Nat) :
    (l.rebase last_index term).Holds last_index [] := by
  refine ⟨rfl, h, List.replicate last_index term, length_replicate, ?_⟩
  rw [map_nil, append_nil]
  rfl

/-- The log holds exactly the current entries. -/
def ShapeInv (s : Tracked) : Prop := ∃ es, s.engine.log.Holds s.base es ∧ s.current = indexed s.base es

variable {s : Tracked}

theorem shapeInv_node {i : NodeInput} (hi : KeepsShape deps s (.node i)) (h : ShapeInv s) :
    ShapeInv (trackStep deps s (.node i)) := by
  obtain ⟨es, hh, hc⟩ := h
  have hlast : s.engine.last_index = s.base + es.length := hh.1
  have hlog := nodeStep_log_eq deps s.engine i
  simp only [KeepsShape] at hi
  simp only [trackStep]
  cases hin : installed deps s.engine i with
  | some r =>
    rw [hin] at hlog hi
    exact ⟨[], by rw [hlog]; exact LogView.holds_rebase (hi nofun) _ _, rfl⟩
  | none =>
    rw [hin] at hlog
    cases ha : accepted s.engine i with
    | some p =>
      rw [ha] at hlog
      refine ⟨es ++ [p], by rw [hlog]; exact hh.push p.1 p.2, ?_⟩
      rw [indexed_append, ← hlast, hc]
      rfl
    | none =>
      rw [ha] at hlog
      exact ⟨es, by rw [hlog]; exact hh, hc⟩

theorem shapeInv_attach {env : Nat → ApplyEnv}
    (hi : KeepsShape deps s (.attach env state)) (h : ShapeInv s) : ShapeInv (trackStep deps s (.attach env state)) := by
  obtain ⟨es, hh, hc⟩ := h
  have hlast : s.engine.last_index = s.base + es.length := hh.1
  simp only [KeepsShape] at hi
  simp only [trackStep]
  cases hr : state.replay deps with
  | error err =>
    have hsame : (attachPersistentState deps env s.engine state).2 = s.engine := by
      unfold attachPersistentState
      rw [hr]
    exact ⟨es, by rw [hsame]; exact hh, hc⟩
  | ok r =>
    obtain ⟨snapshot, entries, raft_meta⟩ := r
    simp only [hr] at hi
    obtain ⟨hempty, hcons, hmeta⟩ := hi
    have hlog := attachPersistentState_log deps env hr hcons hmeta
    have hpushed := replayed_indexed deps.chrono env (machineOf s.engine.cluster_manager snapshot) hcons
    cases snapshot with
    | some sn =>
      refine ⟨_, ?_, hpushed⟩
      rw [hlog]
      exact (LogView.holds_rebase (hempty rfl) sn.last_index sn.term).pushAll _
    | none =>
      refine ⟨es ++ (replayed deps.chrono env s.engine.cluster_manager entries).map fun entry =>
        (entry.term, entry.command), ?_, ?_⟩
      · rw [hlog]
        exact hh.pushAll _
      · simp only
        rw [hpushed, indexed_append, ← hlast, hc]
        rfl

theorem shapeInv_step {i : LogInput} (hi : KeepsShape deps s i) (h : ShapeInv s) :
    ShapeInv (trackStep deps s i) := by
  cases i with
  | node i => exact shapeInv_node deps hi h
  | attach env state => exact shapeInv_attach deps hi h
  | restore sn li t =>
    obtain ⟨es, hh, hc⟩ := h
    have hlog := restoreSnapshot_log deps s.engine sn li t
    simp only [trackStep]
    by_cases hl : li > MAX_SNAPSHOT_LOG_INDEX
    · rw [if_pos hl] at hlog ⊢
      exact ⟨es, by rw [hlog]; exact hh, hc⟩
    · rw [if_neg hl] at hlog ⊢
      exact ⟨[], by rw [hlog]; exact LogView.holds_rebase (hi (not_lt.1 hl)) _ _, rfl⟩

/-! ## What the invariant gives -/

theorem mem_batch_terms {f : NodeId} {t i : Nat} {c : ClusterCommand}
    (h : (t, i, c) ∈ e.buildReplayBatch f) : (i, c) ∈ e.command_log ∧ e.log_terms[i - 1]? = some t := by
  refine ⟨mem_buildReplayBatch h, ?_⟩
  unfold buildReplayBatch at h
  simp only at h
  split at h
  · cases h
  · obtain ⟨⟨j, d⟩, -, he⟩ := mem_filterMap.1 (mem_of_mem_take h)
    split at he
    · cases he
    · obtain ⟨t', ht', hp⟩ := Option.map_eq_some_iff.1 he
      cases hp
      exact ht'

theorem LogView.Holds.indices (h : l.Holds base es) :
    l.command_log.map Prod.fst = List.range' (base + 1) es.length := by
  rw [h.2.1, map_map, ← indexed_indices]
  rfl

theorem find_indexed {e : Nat × Nat × ClusterCommand} (h : e ∈ indexed base es) :
    (indexed base es).reverse.find? (fun x => x.2.1 = e.2.1) = some e := by
  obtain ⟨t, i, c⟩ := e
  cases hf : (indexed base es).reverse.find? (fun x => x.2.1 = i) with
  | none =>
    have hno := find?_eq_none.1 hf (t, i, c) (mem_reverse.2 h)
    exact absurd (decide_eq_true rfl) hno
  | some e' =>
    obtain ⟨t', i', c'⟩ := e'
    have hi : i' = i := by simpa using find?_some hf
    have hm := mem_reverse.1 (mem_of_find?_eq_some hf)
    subst hi
    rw [mem_indexed] at h hm
    have := Option.some.inj (h.2.symm.trans hm.2)
    rw [Prod.mk.injEq] at this
    rw [this.1, this.2]

theorem logShape_of_inv (h : ShapeInv s) : LogShape s := by
  obtain ⟨es, hh, hc⟩ := h
  have hidx : s.engine.command_log.map Prod.fst = List.range' (s.base + 1) es.length := hh.indices
  obtain ⟨hlast, hcmds, below, hlen, hterms⟩ := hh
  have hlast : s.engine.last_index = s.base + es.length := hlast
  have hterms : s.engine.log_terms = below ++ es.map Prod.fst := hterms
  have hcmds : s.engine.command_log = (indexed s.base es).map Prod.snd := hcmds
  refine ⟨?_, ?_, ?_, ?_, ?_⟩
  · rw [hterms, length_append, length_map, hlen, hlast]
  · rw [hidx]
    exact pairwise_lt_range'
  · intro e he
    have hmem : e.1 ∈ s.engine.command_log.map Prod.fst := mem_map_of_mem he
    rw [hidx, mem_range'_1] at hmem
    omega
  · intro i hb hi
    rw [hidx]
    refine count_eq_one_of_mem (nodup_range') ?_
    rw [mem_range'_1]
    omega
  · rintro next_index f ⟨t, i, c⟩ he
    obtain ⟨hmem, hterm⟩ := mem_batch_terms he
    rw [hcmds] at hmem
    obtain ⟨⟨t', i', c'⟩, hin, heq⟩ := mem_map.1 hmem
    cases heq
    -- The table has the entry's own term at its index.
    have hat := (mem_indexed.1 hin)
    have hpos : i - 1 = below.length + (i - (s.base + 1)) := by omega
    rw [hterms, hpos, getElem?_append_right (Nat.le_add_right _ _), Nat.add_sub_cancel_left,
      getElem?_map, hat.2] at hterm
    have ht : t' = t := Option.some.inj hterm
    subst ht
    rw [Tracked.entryAt, hc]
    exact find_indexed hin

def Tracked.new (env : StepEnv) (config : ReplicationConfig) (m : ClusterManager) : Tracked where
  engine := ReplicationEngine.new env config m
  base := 0
  current := []

/-- In every run from a new engine whose inputs keep the shape, the log has its
shape in every state passed. -/
theorem log_shape (env : StepEnv) (config : ReplicationConfig) (m : ClusterManager) (is : List LogInput)
    (h : Guarded (trackStep deps) (KeepsShape deps) (Tracked.new env config m) is) (js : List LogInput)
    (hjs : js <+: is) : LogShape (js.foldl (trackStep deps) (Tracked.new env config m)) := by
  refine logShape_of_inv ((h.shorten hjs).inv ShapeInv (fun s i hi hs => shapeInv_step deps hi hs) ?_)
  exact ⟨[], ⟨rfl, rfl, [], rfl, rfl⟩, rfl⟩

/-- A node restores a snapshot first, takes two entries and attaches an empty
directory. -/
def shapedRun : List LogInput :=
  [.restore (snapshot (memberManager "n1")) 2 1,
    .node (.receive stillEnv "n1" (.ReplicateCommand 1 3 (.ReleaseTaskLock "t1"))),
    .node (.receive stillEnv "n1" (.ReplicateCommand 2 4 (.ReleaseTaskLock "t2"))),
    .attach (fun _ => stillEnv.apply) ⟨"raft", {}, {}⟩]

theorem log_shape_of_restored_node :
    LogShape (shapedRun.foldl (trackStep bareDeps)
      (Tracked.new stillEnv (memberConfig "n2" ["n1", "n3"]) (memberManager "n2"))) :=
  log_shape bareDeps stillEnv (memberConfig "n2" ["n1", "n3"]) (memberManager "n2") shapedRun
    ⟨fun _ => rfl, fun h => absurd rfl h, fun h => absurd rfl h,
      ⟨fun h => absurd h (by decide), by decide, by decide⟩, trivial⟩
    shapedRun (prefix_refl _)

/-- A node with two entries of term 1 restores a snapshot that ends at index 1,
takes a new entry at index 2, and is elected. -/
def rewoundRun : List LogInput :=
  [.node (.receive stillEnv "n1" (.ReplicateCommand 1 1 (.ReleaseTaskLock "t1"))),
    .node (.receive stillEnv "n1" (.ReplicateCommand 1 2 (.ReleaseTaskLock "old"))),
    .node (.receive stillEnv "n3" (.SnapshotResponse (snapshot (memberManager "n3")) 1 2)),
    .node (.receive stillEnv "n3" (.ReplicateCommand 2 2 (.ReleaseTaskLock "new"))),
    .node (.act .armElection), .node (.receive stillEnv "n3" (.VoteResponse "n3" 3 true)),
    .node (.receive stillEnv "n1" (.ReplicateAck "n1" 3 false (some 1)))]

/-- Its command log has index 2 twice, and the replay sends the old command
before the new one. -/
theorem stale_entry_replayed :
    let s := rewoundRun.foldl (trackStep bareDeps)
      (Tracked.new stillEnv (memberConfig "n2" ["n1", "n3"]) (memberManager "n2"))
    s.engine.command_log.map Prod.fst = [1, 2, 2] ∧
      s.engine.buildReplayBatch "n1" = [(2, 2, .ReleaseTaskLock "old"), (2, 2, .ReleaseTaskLock "new")] ∧
      s.entryAt 2 = some (2, 2, .ReleaseTaskLock "new") ∧ ¬ LogShape s := by
  refine ⟨by decide, by decide, by decide, fun h => ?_⟩
  exact absurd h.increasing (by decide)

end FerroDruid.Cluster
