import FerroDruid.Cluster.Agreement
import FerroDruid.Cluster.Chunks
import FerroDruid.Cluster.LogShape
/-!
# Crash and recovery

An engine runs with a state directory: every entry it takes and every snapshot
it restores goes to disk as the operation goes on. The process stops somewhere
inside an operation, a new engine opens the directory, replays it and attaches
it. `recovery` says what comes back: the newest installed snapshot and the
entries above it, with the interrupted operation's own entry exactly when its
line was complete.

It holds as long as snapshots do not rewind the log, no line is cut in the
middle, and the state machine accepts the entries it replays. A cut line is a
line that does not parse, and `replay` gives up on it; a snapshot below the
end of the log leaves entries and a last index on disk that the log no longer
has.
-/

namespace FerroDruid.Cluster

open FerroDruid.Lib ReplicationEngine PersistentRaftState List

variable (deps : Deps)

/-! ## What goes to disk -/

inductive DiskOp where
  | append (entry : PersistedEntry)
  | install (snapshot : PersistedSnapshot)
  deriving DecidableEq

/-- What an input makes the engine write. -/
def diskOp (e : ReplicationEngine) (i : NodeInput) : Option DiskOp :=
  match installed deps e i, accepted e i with
  | some (snapshot, last_index, term), _ => some (.install { last_index, term, snapshot })
  | none, some (term, command) => some (.append { index := e.last_index + 1, term, command })
  | none, none => none

def DiskOp.run (st : PersistentRaftState) : DiskOp → PersistentRaftState
  | .append entry => st.appendLogEntry deps entry.index entry.term entry.command
  | .install s => (st.installSnapshot deps s.snapshot s.last_index s.term).2

variable (env : StepEnv)

theorem diskOp_of_not_reaches {e : ReplicationEngine} {i : NodeInput} (h : ¬ Reaches i) : diskOp deps e i = none := by
  have hinstalled : installed deps e i = none := by
    unfold installed
    split
    · exact absurd (.snapshot _ _ _ _ _) h
    · exact absurd (.chunk _ _ _) h
    · rfl
  have haccepted : accepted e i = none := by
    unfold accepted
    split
    · exact absurd (.submit _ _) h
    · exact absurd (.command _ _ _ _ _) h
    · rfl
  rw [diskOp, hinstalled, haccepted]

/-- The engine writes what `diskOp` says and nothing else. -/
theorem nodeStep_persist (e : ReplicationEngine) (i : NodeInput) :
    (nodeStep deps e i).2.persistent_state = match diskOp deps e i with
      | some op => e.persistent_state.map fun st => op.run deps st
      | none => e.persistent_state := by
  by_cases hreach : Reaches i
  swap
  · rw [diskOp_of_not_reaches deps hreach]
    exact congrArg Holdings.persistent_state (nodeStep_holdings deps e hreach)
  cases hreach with
  | command env s t index cmd =>
    have h := congrArg Holdings.persistent_state (receiveCommand_holdings deps env e t index cmd)
    simp only [nodeStep, receive, processReplicateCommand, diskOp, installed, accepted]
    refine h.trans ?_
    split <;> rfl
  | snapshot env s sn li t =>
    have hr := congrArg Holdings.persistent_state (receive_snapshotResponse deps env e s sn li t)
    have h := congrArg Holdings.persistent_state (restoreSnapshot_holdings deps e sn li t)
    simp only [nodeStep, diskOp, installed, accepted]
    refine (hr.trans h).trans ?_
    split <;> rfl
  | chunk env s c =>
    have h := congrArg Holdings.persistent_state (handleSnapshotChunk_holdings deps e c)
    have hb := congrArg Holdings.persistent_state (buffered_holdings e c)
    simp only [nodeStep, receive_snapshotChunk, diskOp, installed, accepted]
    refine h.trans ?_
    cases installs deps e c with
    | none => exact hb
    | some r => exact congrArg (Option.map _) hb
  | chunkAck env s f t l applied =>
    exact congrArg Holdings.persistent_state (receiveSnapshotChunkAck_holdings e f t l applied)
  | submit env cmd =>
    have h := congrArg Holdings.persistent_state (beginSubmit_holdings deps env e cmd)
    simp only [nodeStep, diskOp, installed, accepted]
    refine h.trans ?_
    split <;> rfl

/-! ## Reading a journal back -/

/-- `serde_json` writes the entry on one line and reads it back. -/
structure ReadableEntry (entry : PersistedEntry) : Prop where
  clean : CleanLine (deps.entry_json.to_vec entry)
  visible : isBlank (deps.entry_json.to_vec entry) = false
  back : deps.entry_json.from_slice (deps.entry_json.to_vec entry) = .ok entry

instance (entry : PersistedEntry) : Decidable (ReadableEntry deps entry) :=
  decidable_of_iff (CleanLine (deps.entry_json.to_vec entry) ∧ isBlank (deps.entry_json.to_vec entry) = false ∧
      deps.entry_json.from_slice (deps.entry_json.to_vec entry) = .ok entry)
    ⟨fun h => ⟨h.1, h.2.1, h.2.2⟩, fun h => ⟨h.clean, h.visible, h.back⟩⟩

variable {deps} {entry : PersistedEntry}

theorem ReadableEntry.ne_nil (h : ReadableEntry deps entry) : deps.entry_json.to_vec entry ≠ [] := by
  intro hn
  have hv := h.visible
  rw [hn] at hv
  cases hv

variable {es : List PersistedEntry}

theorem lines_journal (h : ∀ entry ∈ es, ReadableEntry deps entry) :
    lines (es.flatMap (line deps)) = es.map deps.entry_json.to_vec := by
  have hclean : ∀ l ∈ es.map deps.entry_json.to_vec, CleanLine l := by
    intro l hl
    obtain ⟨entry, he, rfl⟩ := mem_map.1 hl
    exact (h entry he).clean
  have hl := lines_flatMap hclean
  rw [flatMap_map] at hl
  exact hl

/-- The last entry is there without its newline. -/
theorem lines_journal_torn (h : ∀ en ∈ es, ReadableEntry deps en) (he : ReadableEntry deps entry) :
    lines (es.flatMap (line deps) ++ deps.entry_json.to_vec entry) = (es ++ [entry]).map deps.entry_json.to_vec := by
  have hclean : ∀ l ∈ es.map deps.entry_json.to_vec, CleanLine l := by
    intro l hl
    obtain ⟨en, hen, rfl⟩ := mem_map.1 hl
    exact (h en hen).clean
  have hl := lines_torn hclean he.clean he.ne_nil
  rw [flatMap_map] at hl
  rw [map_append]
  exact hl

theorem parseLines_readable (h : ∀ entry ∈ es, ReadableEntry deps entry) (dir : String)
    (cutoff n : Nat) : parseLines deps dir cutoff n (es.map deps.entry_json.to_vec) =
      .ok (es.filter fun entry => cutoff < entry.index) := by
  induction es generalizing n with
  | nil => rfl
  | cons entry es ih =>
    have he := h entry mem_cons_self
    have hrest := ih (fun en hen => h en (mem_cons_of_mem _ hen)) (n + 1)
    rw [map_cons, parseLines, he.visible, if_neg Bool.false_ne_true]
    simp only [he.back, hrest, filter_cons, gt_iff_lt, decide_eq_true_eq]

/-- Sorting and removing duplicates changes nothing when the indices rise. -/
theorem dedup_sort_rising (h : es.Pairwise fun a b => a.index < b.index) :
    dedupByIndex (sortByIndex es) = es := by
  have hs : sortByIndex es = es := by
    refine List.Pairwise.insertionSort_eq (h.imp ?_)
    intro a b hab
    exact hab.le
  rw [hs, dedupByIndex]
  refine destutter_of_isChain _ _ (List.Pairwise.isChain (h.imp ?_))
  intro a b hab
  exact ne_of_lt hab

/-- The entries' indices are `k + 1`, `k + 2`, and so on. -/
def Consecutive (k : Nat) (es : List PersistedEntry) : Prop := es.map (·.index) = List.range' (k + 1) es.length

variable {k : Nat}

theorem Consecutive.rising (h : Consecutive k es) : es.Pairwise fun a b => a.index < b.index := by
  have hp : (es.map (·.index)).Pairwise (· < ·) := by
    rw [h]
    exact pairwise_lt_range'
  rwa [pairwise_map] at hp

theorem Consecutive.bounds (h : Consecutive k es)
    (he : entry ∈ es) : k < entry.index ∧ entry.index ≤ k + es.length := by
  have hm : entry.index ∈ es.map (·.index) := mem_map_of_mem he
  rw [h, mem_range'_1] at hm
  omega

theorem Consecutive.concat (h : Consecutive k es)
    (he : entry.index = k + es.length + 1) : Consecutive k (es ++ [entry]) := by
  unfold Consecutive at h ⊢
  rw [map_append, h, length_append, range'_append_1.symm]
  simp only [map_cons, map_nil, length_cons, length_nil, he]
  congr 2
  omega

theorem Consecutive.last (h : Consecutive k es) :
    (es.getLast?.map (·.index)).getD k = k + es.length := by
  rw [← getLast?_map, h]
  cases es with
  | nil => rfl
  | cons entry es =>
    rw [length_cons, range'_1_concat, getLast?_concat, Option.getD_some]
    omega

theorem loadLogEntries_of (st : PersistentRaftState) {bytes : Bytes}
    (hb : st.files.log_jsonl = some bytes) (hl : lines bytes = es.map deps.entry_json.to_vec)
    (hr : ∀ entry ∈ es, ReadableEntry deps entry) (hs : es.Pairwise fun a b => a.index < b.index) (cutoff : Nat) :
    loadLogEntries deps st cutoff = .ok (es.filter fun entry => cutoff < entry.index) := by
  unfold loadLogEntries
  rw [hb]
  simp only [hl, parseLines_readable hr]
  rw [dedup_sort_rising (hs.filter _)]

/-! ## Runs with a state directory -/

/-- An engine with its directory attached, and the log it has by right: the
snapshot it restored last, and the entries it took since. -/
structure Durable where
  engine : ReplicationEngine
  snapshot : Option PersistedSnapshot
  entries : List PersistedEntry

/-- The last index a snapshot covers. -/
def baseOf (snapshot : Option PersistedSnapshot) : Nat := (snapshot.map (·.last_index)).getD 0

variable (deps)

/-- A new engine on an empty directory. -/
def Durable.start (dir : String) (applyEnv : Nat → ApplyEnv) (env : StepEnv) (config : ReplicationConfig)
    (m : ClusterManager) : Durable where
  engine := match openOrCreate deps dir {} with
    | .ok st => (attachPersistentState deps applyEnv (ReplicationEngine.new env config m) st).2
    | .error _ => ReplicationEngine.new env config m
  snapshot := none
  entries := []

def durableStep (s : Durable) (i : NodeInput) : Durable :=
  let engine := (nodeStep deps s.engine i).2
  match diskOp deps s.engine i with
  | some (.append entry) => { s with engine, entries := s.entries ++ [entry] }
  | some (.install sn) => { engine, snapshot := some sn, entries := [] }
  | none => { s with engine }

/-- `serde_json` reads back what the operation writes. -/
def DiskOp.ReadsBack (st : PersistentRaftState) (op : DiskOp) : Prop :=
  deps.meta_json.from_slice (deps.meta_json.to_vec (op.run deps st).raft_meta) = .ok (op.run deps st).raft_meta ∧
    match op with
    | .append entry => ReadableEntry deps entry
    | .install sn => deps.envelope_json.from_slice (deps.envelope_json.to_vec sn) = .ok sn

instance (st : PersistentRaftState) : ∀ op, Decidable (DiskOp.ReadsBack deps st op)
  | .append _ => inferInstanceAs (Decidable (_ ∧ _))
  | .install _ => inferInstanceAs (Decidable (_ ∧ _))

def ReadsBackOp (s : Durable) (i : NodeInput) : Prop :=
  ∀ op ∈ diskOp deps s.engine i, ∀ st ∈ s.engine.persistent_state, op.ReadsBack deps st

instance (s : Durable) (i : NodeInput) : Decidable (ReadsBackOp deps s i) :=
  inferInstanceAs (Decidable (∀ op ∈ diskOp deps s.engine i, ∀ st ∈ s.engine.persistent_state, op.ReadsBack deps st))

/-- A snapshot covers the log it replaces. -/
def DiskOp.Covers (last_index : Nat) : DiskOp → Prop
  | .append _ => True
  | .install sn => last_index ≤ sn.last_index

instance (last_index : Nat) : ∀ op : DiskOp, Decidable (op.Covers last_index)
  | .append _ => .isTrue trivial
  | .install sn => inferInstanceAs (Decidable (last_index ≤ sn.last_index))

def KeepsEnd (s : Durable) (i : NodeInput) : Prop := ∀ op ∈ diskOp deps s.engine i, op.Covers s.engine.last_index

instance (s : Durable) (i : NodeInput) : Decidable (KeepsEnd deps s i) :=
  inferInstanceAs (Decidable (∀ op ∈ diskOp deps s.engine i, op.Covers s.engine.last_index))

/-! ## Where an operation can stop -/

/-- The process stops before the operation, when some bytes of its journal line
are written, when its snapshot is in place, when the journal is compacted as
well, or after it. -/
inductive CrashPoint where
  | before
  | journal (written : Nat)
  | snapshot
  | compacted
  | done
  deriving DecidableEq, Repr

/-- The directory an operation leaves when it stops there. -/
def DiskOp.cut (st : PersistentRaftState) : DiskOp → CrashPoint → PersistentRaftState
  | .append entry, .journal written => pushJournal st ((line deps entry).take written)
  | .install sn, .snapshot => replaceSnapshot deps st sn
  | .install sn, .compacted => match compactJournal deps (replaceSnapshot deps st sn) sn.last_index with
    | .ok compacted => compacted
    | .error _ => replaceSnapshot deps st sn
  | op, .done => op.run deps st
  | _, _ => st

def crashFiles (s : Durable) (i : NodeInput) (p : CrashPoint) : Files :=
  match diskOp deps s.engine i, s.engine.persistent_state with
  | some op, some st => (op.cut deps st p).files
  | none, some st => st.files
  | _, none => {}

/-- A journal line is written in full, or up to its newline, or not at all. -/
def DiskOp.CleanCut (p : CrashPoint) : DiskOp → Prop
  | .append entry => ∀ written, p = .journal written → written = 0 ∨ (deps.entry_json.to_vec entry).length ≤ written
  | .install _ => True

def CleanCut (s : Durable) (i : NodeInput) (p : CrashPoint) : Prop :=
  ∀ op ∈ diskOp deps s.engine i, op.CleanCut deps p

/-- The log that survives: the operation counts as soon as its line, or its
snapshot, is there. -/
def survives (s : Durable) (i : NodeInput) (p : CrashPoint) : Option PersistedSnapshot × List PersistedEntry :=
  match diskOp deps s.engine i, p with
  | some (.append entry), .journal (_ + 1) => (s.snapshot, s.entries ++ [entry])
  | some (.append entry), .done => (s.snapshot, s.entries ++ [entry])
  | some (.install sn), .snapshot => (some sn, [])
  | some (.install sn), .compacted => (some sn, [])
  | some (.install sn), .done => (some sn, [])
  | _, _ => (s.snapshot, s.entries)

/-- The directory opens and replays to this snapshot and these entries, and a
new engine that attaches it ends at the last of them. -/
def Recovers (dir : String) (files : Files) (env : Nat → ApplyEnv) (fresh : ReplicationEngine)
    (log : Option PersistedSnapshot × List PersistedEntry) : Prop :=
  ∃ st raft_meta, openOrCreate deps dir files = .ok st ∧ st.replay deps = .ok (log.1, log.2, raft_meta) ∧
    (attachPersistentState deps env fresh st).1 = .ok () ∧
    (attachPersistentState deps env fresh st).2.last_index =
      (attachPersistentState deps env fresh st).2.log_terms.length ∧
    (attachPersistentState deps env fresh st).2.last_index = (log.2.getLast?.map (·.index)).getD (baseOf log.1)

/-! ## What is on disk -/

/-- The files hold this log; the meta record may lag behind it. -/
structure OnDisk (files : Files) (log : Option PersistedSnapshot × List PersistedEntry) : Prop where
  journal : ∃ (bytes : Bytes) (es : List PersistedEntry), files.log_jsonl = some bytes ∧ lines bytes = es.map deps.entry_json.to_vec ∧
    (∀ entry ∈ es, ReadableEntry deps entry) ∧ es.Pairwise (fun a b => a.index < b.index) ∧
    es.filter (fun entry => baseOf log.1 < entry.index) = log.2
  snapshot : files.snapshot_json = log.1.map deps.envelope_json.to_vec
  envelope : ∀ sn, log.1 = some sn → deps.envelope_json.from_slice (deps.envelope_json.to_vec sn) = .ok sn
  consecutive : Consecutive (baseOf log.1) log.2
  meta_json : files.meta_json = none ∨ ∃ m, files.meta_json = some (deps.meta_json.to_vec m) ∧
    deps.meta_json.from_slice (deps.meta_json.to_vec m) = .ok m ∧ m.last_index ≤ baseOf log.1 + log.2.length

variable {deps}

theorem replayEntries_ok {env : Nat → ApplyEnv} {e : ReplicationEngine} {entries : List PersistedEntry}
    (h : ∀ r ∈ (applyAll deps.chrono (entries.map (·.command)) env e.cluster_manager).1, r.toBool = true) :
    (replayEntries deps env e entries).1 = .ok () := by
  induction entries generalizing env e with
  | nil => rfl
  | cons entry entries ih =>
    simp only [map_cons, applyAll, forall_mem_cons] at h
    obtain ⟨hok, hrest⟩ := h
    cases ha : (apply deps.chrono (env 0) e.cluster_manager entry.command).1 with
    | error err =>
      rw [ha] at hok
      cases hok
    | ok r =>
      simp only [replayEntries, applyCommand, ha]
      exact ih hrest

variable {files : Files} {log : Option PersistedSnapshot × List PersistedEntry}

/-- A directory that holds a log opens and replays to it. -/
theorem OnDisk.replay (h : OnDisk deps files log) (dir : String) :
    ∃ st raft_meta, openOrCreate deps dir files = .ok st ∧ st.replay deps = .ok (log.1, log.2, raft_meta) ∧
      raft_meta.last_index ≤ baseOf log.1 + log.2.length := by
  obtain ⟨⟨bytes, es, hb, hl, hr, hs, hf⟩, hsnap, henv, -, hmeta⟩ := h
  -- Whatever the meta record is, the other files are read as they are.
  have key : ∀ m : PersistedMeta, PersistentRaftState.replay deps ⟨dir, { files with log_jsonl := some bytes }, m⟩ =
      .ok (log.1, log.2, m) := by
    intro m
    have hload := loadLogEntries_of ⟨dir, { files with log_jsonl := some bytes }, m⟩ rfl hl hr hs (baseOf log.1)
    rw [hf] at hload
    have hsn : loadSnapshot deps ⟨dir, { files with log_jsonl := some bytes }, m⟩ = .ok log.1 := by
      unfold loadSnapshot
      simp only [hsnap]
      cases hlog : log.1 with
      | none => rfl
      | some sn => simp only [Option.map_some, henv sn hlog]
    unfold PersistentRaftState.replay
    simp only [hsn]
    unfold baseOf at hload
    rw [hload]
  rcases hmeta with hnone | ⟨m, hm, hback, hle⟩
  · refine ⟨⟨dir, { files with log_jsonl := some bytes }, {}⟩, {}, ?_, key {}, Nat.zero_le _⟩
    unfold openOrCreate
    simp only [hnone, hb, Option.getD_some]
  · refine ⟨⟨dir, { files with log_jsonl := some bytes }, m⟩, m, ?_, key m, hle⟩
    unfold openOrCreate
    simp only [hm, hback, hb, Option.getD_some]

/-- A new engine that attaches the directory ends at the last entry, when its
state machine takes them all. -/
theorem OnDisk.recovers
    (h : OnDisk deps files log) (dir : String) (env : Nat → ApplyEnv) (stepEnv : StepEnv) (config : ReplicationConfig)
    (m : ClusterManager)
    (ha : ∀ r ∈ (applyAll deps.chrono (log.2.map (·.command)) env (machineOf m log.1)).1, r.toBool = true) :
    Recovers deps dir files env (ReplicationEngine.new stepEnv config m) log := by
  obtain ⟨st, raft_meta, hopen, hreplay, hmeta⟩ := h.replay dir
  have hcons := h.consecutive
  have hlog := attachPersistentState_log deps env hreplay (e := ReplicationEngine.new stepEnv config m) hcons hmeta
  have hok : (attachPersistentState deps env (ReplicationEngine.new stepEnv config m) st).1 = .ok () ∧
      replayed deps.chrono env (machineOf m log.1) log.2 = log.2 := by
    -- The engine that replays starts with the snapshot in place.
    have key : ∀ restored : ReplicationEngine, restored.cluster_manager = machineOf m log.1 →
        restored.last_index = baseOf log.1 → (replayEntries deps env restored log.2).1 = .ok () ∧
          replayed deps.chrono env (machineOf m log.1) log.2 = log.2 := by
      intro restored hm hl
      have hr := replayEntries_ok (e := restored) (by rw [hm]; exact ha)
      have hall := (replayEntries_log deps env restored log.2 (by rw [hl]; exact hcons)).2 hr
      rw [hm] at hall
      exact ⟨hr, hall⟩
    unfold attachPersistentState
    simp only [hreplay]
    cases hsn : log.1 with
    | none =>
      rw [hsn] at key
      obtain ⟨hr, hall⟩ := key (ReplicationEngine.new stepEnv config m) rfl rfl
      simp only [hr]
      exact ⟨trivial, hall⟩
    | some sn =>
      rw [hsn] at key
      obtain ⟨hr, hall⟩ := key
        { ReplicationEngine.new stepEnv config m with
          cluster_manager := restore (ReplicationEngine.new stepEnv config m).cluster_manager sn.snapshot
          last_index := sn.last_index
          log_terms := List.replicate sn.last_index sn.term } rfl rfl
      simp only [hr]
      exact ⟨trivial, hall⟩
  have hbase : ((ReplicationEngine.new stepEnv config m).log.onto log.1).last_index = baseOf log.1 := by
    cases log.1 <;> rfl
  have hterms : ((ReplicationEngine.new stepEnv config m).log.onto log.1).log_terms.length = baseOf log.1 := by
    cases log.1 with
    | none => rfl
    | some sn => exact length_replicate
  have hlen : ((replayed deps.chrono env (machineOf m log.1) log.2).map fun entry =>
      (entry.term, entry.command)).length = log.2.length := by rw [hok.2, length_map]
  have hlast : (attachPersistentState deps env (ReplicationEngine.new stepEnv config m) st).2.last_index =
      baseOf log.1 + log.2.length := by
    have hl := congrArg LogView.last_index hlog
    rw [pushAll_last_index, hbase] at hl
    exact hl.trans (congrArg _ hlen)
  have hcount : (attachPersistentState deps env (ReplicationEngine.new stepEnv config m) st).2.log_terms.length =
      baseOf log.1 + log.2.length := by
    have hl := congrArg (fun l => l.log_terms.length) hlog
    simp only [pushAll_log_terms, length_append, length_map, hterms] at hl
    exact hl.trans (by rw [← hlen, length_map]; rfl)
  exact ⟨st, raft_meta, hopen, hreplay, hok.1, hlast.trans hcount.symm, hlast.trans hcons.last.symm⟩

/-! ## The invariant -/

/-- The directory is up to date with the log. -/
structure DiskInv (deps : Deps) (s : Durable) (st : PersistentRaftState) : Prop where
  attached : s.engine.persistent_state = some st
  journal : st.files.log_jsonl = some (s.entries.flatMap (line deps))
  snapshot : st.files.snapshot_json = s.snapshot.map deps.envelope_json.to_vec
  envelope : ∀ sn, s.snapshot = some sn → deps.envelope_json.from_slice (deps.envelope_json.to_vec sn) = .ok sn
  readable : ∀ entry ∈ s.entries, ReadableEntry deps entry
  consecutive : Consecutive (baseOf s.snapshot) s.entries
  last : s.engine.last_index = baseOf s.snapshot + s.entries.length
  meta_last : st.raft_meta.last_index = baseOf s.snapshot + s.entries.length
  meta_json : st.files.meta_json = none ∨ (st.files.meta_json = some (deps.meta_json.to_vec st.raft_meta) ∧
    deps.meta_json.from_slice (deps.meta_json.to_vec st.raft_meta) = .ok st.raft_meta)

theorem nodeStep_last (deps : Deps) (e : ReplicationEngine) (i : NodeInput) :
    (nodeStep deps e i).2.last_index = match diskOp deps e i with
      | some (.append _) => e.last_index + 1
      | some (.install sn) => sn.last_index
      | none => e.last_index := by
  have hl : (nodeStep deps e i).2.last_index = _ := congrArg LogView.last_index (nodeStep_log_eq deps e i)
  rw [hl]
  unfold diskOp
  cases installed deps e i with
  | some r => rfl
  | none => cases accepted e i <;> rfl

variable {i : NodeInput}

theorem diskOp_append {e : ReplicationEngine}
    (h : diskOp deps e i = some (.append entry)) : entry.index = e.last_index + 1 := by
  unfold diskOp at h
  split at h
  · cases h
  · cases h
    rfl
  · cases h

variable {s : Durable} {st : PersistentRaftState}

/-- Every entry of the log is on disk and above the snapshot. -/
theorem DiskInv.filter_all (h : DiskInv deps s st) :
    s.entries.filter (fun entry => baseOf s.snapshot < entry.index) = s.entries := by
  rw [filter_eq_self]
  intro entry he
  exact decide_eq_true (h.consecutive.bounds he).1

/-- No entry of the log is above a snapshot that covers it. -/
theorem DiskInv.filter_none (h : DiskInv deps s st) {last_index : Nat}
    (hl : s.engine.last_index ≤ last_index) : s.entries.filter (fun entry => last_index < entry.index) = [] := by
  rw [filter_eq_nil_iff]
  intro entry he
  have hb := (h.consecutive.bounds he).2
  have hlast := h.last
  rw [decide_eq_true_eq]
  omega

theorem DiskInv.onDisk (h : DiskInv deps s st) : OnDisk deps st.files (s.snapshot, s.entries) := by
  refine ⟨⟨_, s.entries, h.journal, lines_journal h.readable, h.readable, h.consecutive.rising, h.filter_all⟩, h.snapshot,
    h.envelope, h.consecutive, ?_⟩
  rcases h.meta_json with hn | ⟨hm, hb⟩
  · exact .inl hn
  · exact .inr ⟨st.raft_meta, hm, hb, h.meta_last.le⟩

variable {sn : PersistedSnapshot}

theorem DiskInv.compact (h : DiskInv deps s st) (hl : s.engine.last_index ≤ sn.last_index) :
    compactJournal deps (replaceSnapshot deps st sn) sn.last_index =
      .ok (replaceJournal deps (replaceSnapshot deps st sn) []) := by
  unfold compactJournal
  rw [loadLogEntries_of (replaceSnapshot deps st sn) h.journal (lines_journal h.readable) h.readable
    h.consecutive.rising, h.filter_none hl]

theorem DiskInv.install (h : DiskInv deps s st) (hl : s.engine.last_index ≤ sn.last_index) :
    DiskOp.run deps st (.install sn) = replaceMeta deps (replaceJournal deps (replaceSnapshot deps st sn) [])
      { current_term := max st.raft_meta.current_term sn.term
        voted_for := st.raft_meta.voted_for
        last_index := max st.raft_meta.last_index sn.last_index } := by
  simp only [DiskOp.run, installSnapshot]
  rw [h.compact hl]

theorem diskInv_append {e' : ReplicationEngine}
    (h : DiskInv deps s st) (hi : entry.index = s.engine.last_index + 1) (hread : ReadableEntry deps entry)
    (hmeta : deps.meta_json.from_slice (deps.meta_json.to_vec (DiskOp.run deps st (.append entry)).raft_meta) =
      .ok (DiskOp.run deps st (.append entry)).raft_meta)
    (hlast : e'.last_index = s.engine.last_index + 1)
    (hst : e'.persistent_state = some (DiskOp.run deps st (.append entry))) :
    DiskInv deps { s with engine := e', entries := s.entries ++ [entry] } (DiskOp.run deps st (.append entry)) := by
  have hend := h.last
  refine ⟨hst, ?_, h.snapshot, h.envelope, ?_, h.consecutive.concat (by omega), ?_, ?_, .inr ⟨rfl, hmeta⟩⟩
  · simp only [DiskOp.run, appendLogEntry, replaceMeta, pushJournal, h.journal, Option.getD_some, flatMap_append,
      flatMap_cons, flatMap_nil, append_nil]
  · intro en hen
    rcases mem_append.1 hen with hen | hen
    · exact h.readable en hen
    · rw [mem_singleton.1 hen]
      exact hread
  · rw [hlast, hend, length_append, length_singleton, Nat.add_assoc]
  · simp only [DiskOp.run, appendLogEntry, replaceMeta, hi, hend, length_append, length_singleton,
      Nat.add_assoc]

theorem diskInv_install {e' : ReplicationEngine}
    (h : DiskInv deps s st) (hl : s.engine.last_index ≤ sn.last_index)
    (hread : deps.envelope_json.from_slice (deps.envelope_json.to_vec sn) = .ok sn)
    (hmeta : deps.meta_json.from_slice (deps.meta_json.to_vec (DiskOp.run deps st (.install sn)).raft_meta) =
      .ok (DiskOp.run deps st (.install sn)).raft_meta)
    (hlast : e'.last_index = sn.last_index)
    (hst : e'.persistent_state = some (DiskOp.run deps st (.install sn))) :
    DiskInv deps { engine := e', snapshot := some sn, entries := [] } (DiskOp.run deps st (.install sn)) := by
  have hend := h.last
  have hm := h.meta_last
  rw [h.install hl] at hmeta hst ⊢
  refine ⟨hst, rfl, rfl, ?_, nofun, rfl, ?_, ?_, .inr ⟨rfl, hmeta⟩⟩
  · intro sn' hsn
    cases hsn
    exact hread
  · rw [hlast]
    rfl
  · simp only [replaceMeta, baseOf, Option.map_some, Option.getD_some, length_nil, Nat.add_zero]
    omega

theorem ReadsBackOp.of_attached (h : ReadsBackOp deps s i)
    (hst : s.engine.persistent_state = some st) : ∀ op, diskOp deps s.engine i = some op → op.ReadsBack deps st :=
  fun op hop => h op hop st hst

theorem diskInv_step (hk : KeepsEnd deps s i) (hr : ReadsBackOp deps s i) (h : DiskInv deps s st) :
    DiskInv deps (durableStep deps s i) (match diskOp deps s.engine i with
      | some op => op.run deps st
      | none => st) := by
  have hlast := nodeStep_last deps s.engine i
  have hst := nodeStep_persist deps s.engine i
  have hr := hr.of_attached h.attached
  unfold durableStep
  rw [h.attached] at hst
  cases hop : diskOp deps s.engine i with
  | none =>
    rw [hop] at hlast hst
    exact ⟨hst, h.journal, h.snapshot, h.envelope, h.readable, h.consecutive, hlast.trans h.last, h.meta_last, h.meta_json⟩
  | some op =>
    have hr := hr op hop
    have hk := hk op hop
    rw [hop] at hlast hst
    cases op with
    | append entry => exact diskInv_append h (diskOp_append hop) hr.2 hr.1 hlast hst
    | install sn => exact diskInv_install h hk hr.2 hr.1 hlast hst

/-! ## The directory a crash leaves -/

/-- A line cut at or after the end of its JSON reads as the entry. -/
theorem lines_cut (h : ∀ en ∈ es, ReadableEntry deps en)
    (he : ReadableEntry deps entry) {written : Nat} (hw : (deps.entry_json.to_vec entry).length ≤ written) :
    lines (es.flatMap (line deps) ++ (line deps entry).take written) = (es ++ [entry]).map deps.entry_json.to_vec := by
  rcases hw.eq_or_lt with hw | hw
  · rw [line, ← hw, take_left]
    exact lines_journal_torn h he
  · have hfull : (line deps entry).take written = line deps entry := by
      rw [take_of_length_le]
      rw [line, length_append, length_singleton]
      exact hw
    have hflat : es.flatMap (line deps) ++ line deps entry = (es ++ [entry]).flatMap (line deps) := by
      rw [flatMap_append, flatMap_singleton]
    rw [hfull, hflat]
    refine lines_journal ?_
    intro en hen
    rcases mem_append.1 hen with hen | hen
    · exact h en hen
    · rw [mem_singleton.1 hen]
      exact he

theorem onDisk_journal (h : DiskInv deps s st)
    (hi : entry.index = s.engine.last_index + 1) (hread : ReadableEntry deps entry) {written : Nat}
    (hw : (deps.entry_json.to_vec entry).length ≤ written) :
    OnDisk deps (pushJournal st ((line deps entry).take written)).files (s.snapshot, s.entries ++ [entry]) := by
  have hend := h.last
  have hcons : Consecutive (baseOf s.snapshot) (s.entries ++ [entry]) := h.consecutive.concat (by omega)
  have hall : (s.entries ++ [entry]).filter (fun en => baseOf s.snapshot < en.index) = s.entries ++ [entry] := by
    rw [filter_eq_self]
    intro en hen
    exact decide_eq_true (hcons.bounds hen).1
  refine ⟨⟨_, s.entries ++ [entry], ?_, lines_cut h.readable hread hw, ?_, hcons.rising, hall⟩, h.snapshot, h.envelope,
    hcons, ?_⟩
  · simp only [pushJournal, h.journal, Option.getD_some]
  · intro en hen
    rcases mem_append.1 hen with hen | hen
    · exact h.readable en hen
    · rw [mem_singleton.1 hen]
      exact hread
  · -- The meta record of the operation before is still there.
    rcases h.meta_json with hn | ⟨hm, hb⟩
    · exact .inl hn
    · refine .inr ⟨st.raft_meta, hm, hb, ?_⟩
      simp only [h.meta_last, length_append]
      omega

/-- With the new snapshot in place, the journal may or may not be compacted. -/
theorem onDisk_snapshot (h : DiskInv deps s st) (hl : s.engine.last_index ≤ sn.last_index)
    (hread : deps.envelope_json.from_slice (deps.envelope_json.to_vec sn) = .ok sn) :
    OnDisk deps (replaceSnapshot deps st sn).files (some sn, []) ∧
      OnDisk deps (replaceJournal deps (replaceSnapshot deps st sn) []).files (some sn, []) := by
  have henv : ∀ sn', some sn = some sn' → deps.envelope_json.from_slice (deps.envelope_json.to_vec sn') = .ok sn' := by
    intro sn' hsn
    cases hsn
    exact hread
  have hmeta : st.files.meta_json = none ∨ ∃ m, st.files.meta_json = some (deps.meta_json.to_vec m) ∧
      deps.meta_json.from_slice (deps.meta_json.to_vec m) = .ok m ∧
        m.last_index ≤ baseOf (some sn) + ([] : List PersistedEntry).length := by
    rcases h.meta_json with hn | ⟨hm, hb⟩
    · exact .inl hn
    · refine .inr ⟨st.raft_meta, hm, hb, ?_⟩
      rw [h.meta_last, ← h.last]
      exact hl
  exact ⟨⟨⟨_, s.entries, h.journal, lines_journal h.readable, h.readable, h.consecutive.rising, h.filter_none hl⟩, rfl,
      henv, rfl, hmeta⟩,
    ⟨⟨_, [], rfl, rfl, nofun, .nil, rfl⟩, rfl, henv, rfl, hmeta⟩⟩

theorem crash_onDisk {p : CrashPoint} (hk : KeepsEnd deps s i) (hr : ReadsBackOp deps s i)
    (hc : CleanCut deps s i p) (h : DiskInv deps s st) :
    OnDisk deps (crashFiles deps s i p) (survives deps s i p) := by
  have hnext := (diskInv_step hk hr h).onDisk
  have hbefore := h.onDisk
  have hr := hr.of_attached h.attached
  unfold durableStep at hnext
  unfold crashFiles survives
  rw [h.attached]
  cases hop : diskOp deps s.engine i with
  | none => exact hbefore
  | some op =>
    have hr := hr op hop
    have hk := hk op hop
    have hc := hc op hop
    rw [hop] at hnext
    cases op with
    | append entry => cases p with
      | before => exact hbefore
      | snapshot => exact hbefore
      | compacted => exact hbefore
      | done => exact hnext
      | journal written => cases written with
        | zero =>
          have hsame : (pushJournal st ((line deps entry).take 0)).files = st.files := by
            simp only [pushJournal, h.journal, take_zero, append_nil, Option.getD_some]
            rw [← h.journal]
          simp only [DiskOp.cut, hsame]
          exact hbefore
        | succ written =>
          rcases hc _ rfl with hc | hc
          · cases hc
          · exact onDisk_journal h (diskOp_append hop) hr.2 hc
    | install sn =>
      obtain ⟨hsnap, hcomp⟩ := onDisk_snapshot h hk hr.2
      cases p with
      | before => exact hbefore
      | journal written => exact hbefore
      | snapshot => exact hsnap
      | compacted =>
        simp only [DiskOp.cut, h.compact hk]
        exact hcomp
      | done => exact hnext

theorem diskInv_start (dir : String) (applyEnv : Nat → ApplyEnv) (env : StepEnv) (config : ReplicationConfig)
    (m : ClusterManager) : ∃ st, DiskInv deps (Durable.start deps dir applyEnv env config m) st := by
  have hstart : (Durable.start deps dir applyEnv env config m).engine =
      { ReplicationEngine.new env config m with
        persistent_state := some ⟨dir, { log_jsonl := some [] }, {}⟩ } := by
    rfl
  refine ⟨⟨dir, { log_jsonl := some [] }, {}⟩, by rw [hstart], rfl, rfl, ?_, ?_, rfl, by rw [hstart]; rfl, rfl, .inl rfl⟩
  · intro snapshot h
    cases h
  · intro entry h
    cases h

variable (deps)

/-- In every run whose snapshots cover the log they replace, wherever its last
operation stops (but not inside the JSON of a line), the directory recovers the
log up to that operation, when the state machine takes the entries again. -/
theorem recovery (dir : String) (applyEnv : Nat → ApplyEnv) (env : StepEnv) (config : ReplicationConfig)
    (m : ClusterManager) (is : List NodeInput) (i : NodeInput)
    (hr : Guarded (durableStep deps) (ReadsBackOp deps) (Durable.start deps dir applyEnv env config m) (is ++ [i]))
    (hk : Guarded (durableStep deps) (KeepsEnd deps) (Durable.start deps dir applyEnv env config m) (is ++ [i]))
    (p : CrashPoint)
    (hc : CleanCut deps (is.foldl (durableStep deps) (Durable.start deps dir applyEnv env config m)) i p)
    (applyEnv' : Nat → ApplyEnv) (env' : StepEnv) (config' : ReplicationConfig) (m' : ClusterManager) :
    let s := is.foldl (durableStep deps) (Durable.start deps dir applyEnv env config m)
    (∀ r ∈ (applyAll deps.chrono ((survives deps s i p).2.map (·.command)) applyEnv'
      (machineOf m' (survives deps s i p).1)).1, r.toBool = true) →
    Recovers deps dir (crashFiles deps s i p) applyEnv' (ReplicationEngine.new env' config' m') (survives deps s i p) := by
  intro s ha
  obtain ⟨hr1, hr2⟩ := (guarded_append _ is [i]).1 hr
  obtain ⟨hk1, hk2⟩ := (guarded_append _ is [i]).1 hk
  obtain ⟨st, h⟩ : ∃ st, DiskInv deps s st := by
    refine (hk1.and hr1).inv (fun s => ∃ st, DiskInv deps s st) ?_ (diskInv_start dir applyEnv env config m)
    rintro s i ⟨hk, hr⟩ ⟨st, h⟩
    exact ⟨_, diskInv_step hk hr h⟩
  exact (crash_onDisk hk2.1 hr2.1 hc h).recovers dir applyEnv' env' config' m' ha

/-! ## A clean crash, a torn line and a rewind -/

/-- The JSON of commands that release a lock. -/
def commandText : ClusterCommand → String
  | .ReleaseTaskLock t => jsonObject [jsonMember "ReleaseTaskLock" (jsonObject [jsonMember "task_id" (jsonString t)])]
  | _ => "null"

def entryText (e : PersistedEntry) : String :=
  jsonObject [jsonMember "index" (toString e.index), jsonMember "term" (toString e.term),
    jsonMember "command" (commandText e.command)]

def metaText (m : PersistedMeta) : String :=
  jsonObject [jsonMember "current_term" (toString m.current_term),
    jsonMember "voted_for" ((m.voted_for.map jsonString).getD "null"), jsonMember "last_index" (toString m.last_index)]

def envelopeText (s : PersistedSnapshot) : String :=
  jsonObject [jsonMember "last_index" (toString s.last_index), jsonMember "term" (toString s.term),
    jsonMember "snapshot" (snapshotText s.snapshot)]

def released (index term : Nat) (task : String) : PersistedEntry := ⟨index, term, .ReleaseTaskLock task⟩

def diskDeps (entries : List PersistedEntry) (metas : List PersistedMeta) (envelopes : List PersistedSnapshot) : Deps :=
  { bareDeps with
    entry_json := textCodec entryText entries "EOF while parsing a string at line 1 column 5"
    meta_json := textCodec metaText metas "EOF while parsing an object"
    envelope_json := textCodec envelopeText envelopes "EOF while parsing an object" }

def diskStart (deps : Deps) : Durable :=
  Durable.start deps "raft" (fun _ => stillEnv.apply) stillEnv (memberConfig "n2" ["n1", "n3"]) (memberManager "n2")

def replicate (term index : Nat) (task : String) : NodeInput :=
  .receive stillEnv "n1" (.ReplicateCommand term index (.ReleaseTaskLock task))

def sendSnapshot (last_index term : Nat) : NodeInput :=
  .receive stillEnv "n1" (.SnapshotResponse (snapshot (memberManager "n1")) last_index term)

/-- Two entries, a snapshot that covers them, one more entry. -/
def coveredRun : List NodeInput := [replicate 1 1 "t1", replicate 1 2 "t2", sendSnapshot 2 2, replicate 2 3 "t3"]

def coveredDeps : Deps :=
  diskDeps [released 1 1 "t1", released 2 1 "t2", released 3 2 "t3", released 4 2 "t4"]
    [⟨1, none, 1⟩, ⟨1, none, 2⟩, ⟨2, none, 2⟩, ⟨2, none, 3⟩, ⟨2, none, 4⟩] [⟨2, 2, snapshot (memberManager "n1")⟩]

/-- The crash comes when the fourth entry lacks only its newline. -/
def coveredCrash : CrashPoint := .journal (coveredDeps.entry_json.to_vec (released 4 2 "t4")).length

theorem recovery_covered :
    let s := coveredRun.foldl (durableStep coveredDeps) (diskStart coveredDeps)
    survives coveredDeps s (replicate 2 4 "t4") coveredCrash =
        (some ⟨2, 2, snapshot (memberManager "n1")⟩, [released 3 2 "t3", released 4 2 "t4"]) ∧
      Recovers coveredDeps "raft" (crashFiles coveredDeps s (replicate 2 4 "t4") coveredCrash)
        (fun _ => stillEnv.apply)
        (ReplicationEngine.new stillEnv (memberConfig "n2" ["n1", "n3"]) (memberManager "n2"))
        (survives coveredDeps s (replicate 2 4 "t4") coveredCrash) := by
  have hop : diskOp coveredDeps (coveredRun.foldl (durableStep coveredDeps) (diskStart coveredDeps)).engine
      (replicate 2 4 "t4") = some (.append (released 4 2 "t4")) := by decide +kernel
  refine ⟨by decide +kernel, recovery coveredDeps "raft" (fun _ => stillEnv.apply) stillEnv _ _ coveredRun _
    (by decide +kernel) (by decide +kernel) _ ?_ _ _ _ _ (by decide +kernel)⟩
  intro op ho
  obtain rfl : DiskOp.append (released 4 2 "t4") = op := Option.some.inj (hop.symm.trans ho)
  intro written hw
  cases hw
  exact .inr le_rfl

/-- The entries a directory replays to. -/
def reopened (deps : Deps) (dir : String) (files : Files) : Except PersistError (List PersistedEntry) :=
  match openOrCreate deps dir files with
  | .error e => .error e
  | .ok st => match st.replay deps with
    | .error e => .error e
    | .ok r => .ok r.2.1

theorem Recovers.reopened {dir : String} {env : Nat → ApplyEnv} {fresh : ReplicationEngine} (h : Recovers deps dir files env fresh log) :
    reopened deps dir files = .ok log.2 := by
  obtain ⟨st, raft_meta, hopen, hreplay, -⟩ := h
  unfold FerroDruid.Cluster.reopened
  simp only [hopen, hreplay]

/-- A snapshot below the end of the log, and a new entry at an index that an
old one had. -/
def rewindRun : List NodeInput := [replicate 1 1 "t1", replicate 1 2 "old", sendSnapshot 1 2, replicate 2 2 "new"]

def rewindDeps : Deps :=
  diskDeps [released 1 1 "t1", released 2 1 "old", released 2 2 "new"]
    [⟨1, none, 1⟩, ⟨1, none, 2⟩, ⟨2, none, 2⟩] [⟨1, 2, snapshot (memberManager "n1")⟩]

/-- Five bytes of the first line make `replay` fail, and after a rewind `replay`
returns the old entry in place of the acknowledged one. -/
theorem recovery_fails :
    (∀ log, ¬ Recovers rewindDeps "raft" (crashFiles rewindDeps (diskStart rewindDeps) (replicate 1 1 "t1") (.journal 5))
        (fun _ => stillEnv.apply)
        (ReplicationEngine.new stillEnv (memberConfig "n2" ["n1", "n3"]) (memberManager "n2")) log) ∧
      let s := rewindRun.foldl (durableStep rewindDeps) (diskStart rewindDeps)
      s.entries = [released 2 2 "new"] ∧
        reopened rewindDeps "raft" (crashFiles rewindDeps s (.timeout 0) .done) = .ok [released 2 1 "old"] := by
  refine ⟨fun log h => ?_, by decide +kernel, by decide +kernel⟩
  have htorn : reopened rewindDeps "raft"
      (crashFiles rewindDeps (diskStart rewindDeps) (replicate 1 1 "t1") (.journal 5)) =
        .error (.Deserialize "raft/log.jsonl" "line 0: EOF while parsing a string at line 1 column 5") := by decide +kernel
  rw [h.reopened] at htorn
  cases htorn

end FerroDruid.Cluster
