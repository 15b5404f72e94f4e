import FerroDruid.Cluster.Voting
import FerroDruid.Lib.Bytes
/-!
# Snapshots sent in chunks

One leader sends one transfer to one follower, in as many calls of
`build_snapshot_chunks` as it likes, and the follower takes any of the chunks,
in any order and any number of times. Between these both nodes do whatever
else they do; the leader's state moves on.

A call serialises the state of its moment, and the follower tells the chunks
of two calls apart by nothing but their index and their count. `transfer_atomic`
says that what the follower restores was the leader's state at one moment as
long as no buffer takes in chunks of two calls: calls of different states may
follow each other, each sent to its end.
-/

namespace FerroDruid.Cluster

open FerroDruid.Lib ReplicationEngine List

variable (deps : Deps) (transfer_id : Nat)

/-- State, last index and term, as `get_snapshot` reads them. -/
abbrev Moment := ClusterSnapshot × Nat × Nat

/-- The two nodes and the record of the transfer. -/
structure Transfer where
  leader : ReplicationEngine
  follower : ReplicationEngine
  /-- Every chunk built so far. -/
  sent : List SnapshotChunk := []
  /-- What each call serialised, and its chunk size. -/
  builds : List (Moment × Nat) := []
  /-- Everything the leader's state has been. -/
  moments : List Moment
  /-- The follower's state at each report of `applied = true`. -/
  restored : List Moment := []

inductive TransferInput where
  | lead (i : NodeInput)
  | build (start_chunk chunk_size : Nat)
  | deliver (k : Nat)
  | follow (i : NodeInput)

def Transfer.start (env : StepEnv) (config config' : ReplicationConfig) (m m' : ClusterManager) : Transfer where
  leader := ReplicationEngine.new env config m
  follower := ReplicationEngine.new env config' m'
  moments := [(ReplicationEngine.new env config m).getSnapshot]

def reportsApplied : Except ClusterError ReplicationMessage → Bool
  | .ok (.SnapshotChunkAck _ _ _ applied) => applied
  | _ => false

/-- The input brings the follower a chunk under the id of the transfer. -/
def ofTransfer : NodeInput → Bool
  | .receive _ _ (.SnapshotChunk c) => decide (c.transfer_id = transfer_id)
  | _ => false

def transferStep (s : Transfer) : TransferInput → Transfer
  | .lead i =>
    let leader := (nodeStep deps s.leader i).2
    { s with leader, moments := leader.getSnapshot :: s.moments }
  | .build start_chunk chunk_size => match buildSnapshotChunks deps s.leader transfer_id start_chunk chunk_size with
    | .ok chunks =>
      { s with sent := s.sent ++ chunks, builds := (s.leader.getSnapshot, max chunk_size 1) :: s.builds }
    | .error _ => s
  | .deliver k => match s.sent[k]? with
    | some c =>
      let r := handleSnapshotChunk deps s.follower c
      { s with
        follower := r.2
        restored := if reportsApplied r.1 then r.2.getSnapshot :: s.restored else s.restored }
    | none => s
  -- Chunks of this transfer come from this leader only.
  | .follow i =>
    if ofTransfer transfer_id i then s else { s with follower := (nodeStep deps s.follower i).2 }

/-- `serde_json` reads back what a call serialises. -/
def ReadsBack (s : Transfer) : TransferInput → Prop
  | .build _ _ => deps.snapshot_json.from_slice (deps.snapshot_json.to_vec s.leader.getSnapshot.1) =
      .ok s.leader.getSnapshot.1
  | _ => True

instance (s : Transfer) : ∀ i, Decidable (ReadsBack deps s i)
  | .build _ _ => inferInstanceAs (Decidable (_ = _))
  | .lead _ => .isTrue trivial
  | .deliver _ => .isTrue trivial
  | .follow _ => .isTrue trivial

/-- Whatever was restored had been the leader's state. -/
def Atomic (s : Transfer) : Prop := ∀ r ∈ s.restored, r ∈ s.moments

instance (s : Transfer) : Decidable (Atomic s) := inferInstanceAs (Decidable (∀ r ∈ s.restored, r ∈ s.moments))

/-! ## The buffers of other inputs -/

theorem handleSnapshotChunk_rx (e : ReplicationEngine) (c : SnapshotChunk) :
    (handleSnapshotChunk deps e c).2.snapshot_rx_buffers = (buffered e c).snapshot_rx_buffers :=
  (congrArg Holdings.snapshot_rx_buffers (handleSnapshotChunk_holdings deps e c)).trans (by split <;> rfl)

theorem lookup_retainTransfer_ne (buffers : HashMap Nat ChunkBuffer) {t t' : Nat} (h : t ≠ t') :
    (retainTransfer buffers t').lookup t = none := by
  unfold retainTransfer
  split
  · rw [AList.lookup_insert_ne h, AList.lookup_empty]
  · exact AList.lookup_empty t

variable {e : ReplicationEngine} {c : SnapshotChunk}

/-- A chunk of another transfer evicts the buffer, or leaves it. -/
theorem buffered_lookup_ne (h : c.transfer_id ≠ transfer_id) :
    (buffered e c).snapshot_rx_buffers.lookup transfer_id = none ∨
      (buffered e c).snapshot_rx_buffers.lookup transfer_id = e.snapshot_rx_buffers.lookup transfer_id := by
  have hr := lookup_retainTransfer_ne e.snapshot_rx_buffers h.symm
  unfold buffered
  split
  · exact .inr rfl
  · left
    unfold reassemble
    simp only
    split_ifs
    · rw [AList.lookup_insert_ne h.symm, hr]
    · rw [AList.lookup_erase_ne h.symm, hr]
    · rw [AList.lookup_insert_ne h.symm, hr]

/-- An input that brings no chunk leaves all buffers alone. -/
theorem nodeStep_rx_eq {i : NodeInput} (h : ∀ env s c, i ≠ .receive env s (.SnapshotChunk c)) :
    (nodeStep deps e i).2.snapshot_rx_buffers = e.snapshot_rx_buffers := by
  by_cases hack : ∃ env s f t l applied, i = .receive env s (.SnapshotChunkAck f t l applied)
  · obtain ⟨env, s, f, t, l, applied, rfl⟩ := hack
    exact congrArg Holdings.snapshot_rx_buffers (receiveSnapshotChunkAck_holdings e f t l applied)
  obtain ⟨log, st, hframe⟩ := nodeStep_frame deps e h fun env s f t l applied hi => hack ⟨env, s, f, t, l, applied, hi⟩
  exact congrArg Holdings.snapshot_rx_buffers hframe

/-- An input that brings no chunk of the transfer leaves its buffer, or drops
it. -/
theorem nodeStep_rx {i : NodeInput} (h : ofTransfer transfer_id i = false) :
    (nodeStep deps e i).2.snapshot_rx_buffers.lookup transfer_id = none ∨
      (nodeStep deps e i).2.snapshot_rx_buffers.lookup transfer_id = e.snapshot_rx_buffers.lookup transfer_id := by
  by_cases hm : ∃ env s c, i = .receive env s (.SnapshotChunk c)
  · obtain ⟨env, s, c, rfl⟩ := hm
    simp only [nodeStep, receive_snapshotChunk, handleSnapshotChunk_rx]
    exact buffered_lookup_ne transfer_id (of_decide_eq_false h)
  · right
    rw [nodeStep_rx_eq deps fun env s c he => hm ⟨env, s, c, he⟩]

/-! ## The buffer of the transfer -/

/-- What a call serialised: the bytes it cut. -/
def payloadOf (b : Moment × Nat) : Bytes := deps.snapshot_json.to_vec b.1.1

def sliceOf (b : Moment × Nat) (idx : Nat) : Bytes := ((payloadOf deps b).drop (idx * b.2)).take b.2

/-- The chunk is one of those a call can have built. -/
structure PieceOf (b : Moment × Nat) (c : SnapshotChunk) : Prop where
  transfer_id : c.transfer_id = transfer_id
  total_chunks : c.total_chunks = totalChunks (payloadOf deps b) b.2
  last_index : c.last_index = b.1.2.1
  term : c.term = b.1.2.2
  total_bytes : c.total_bytes = (payloadOf deps b).length
  payload : c.payload = sliceOf deps b c.chunk_index

/-- The buffer holds only pieces of what one call serialised. -/
structure BufferOf (b : Moment × Nat) (buf : ChunkBuffer) : Prop where
  expected : buf.expected = totalChunks (payloadOf deps b) b.2
  last_index : buf.last_index = b.1.2.1
  term : buf.term = b.1.2.2
  total_bytes : buf.total_bytes = (payloadOf deps b).length
  chunks : ∀ idx p, buf.chunks.lookup idx = some p → p = sliceOf deps b idx

instance (b : Moment × Nat) (buf : ChunkBuffer) : Decidable (BufferOf deps b buf) :=
  decidable_of_iff (buf.expected = totalChunks (payloadOf deps b) b.2 ∧ buf.last_index = b.1.2.1 ∧ buf.term = b.1.2.2 ∧
      buf.total_bytes = (payloadOf deps b).length ∧
      ∀ idx ∈ buf.chunks.keys, ∀ p ∈ buf.chunks.lookup idx, p = sliceOf deps b idx)
    ⟨fun h => ⟨h.1, h.2.1, h.2.2.1, h.2.2.2.1, fun idx p hp =>
        h.2.2.2.2 idx (AList.lookup_isSome.1 (Option.isSome_iff_exists.2 ⟨p, hp⟩)) p hp⟩,
      fun h => ⟨h.expected, h.last_index, h.term, h.total_bytes, fun idx _ p hp => h.chunks idx p hp⟩⟩

/-- A chunk that goes into an open buffer is, with all that is in the buffer, a
piece of what one call serialised. -/
def Unmixed (s : Transfer) : TransferInput → Prop
  | .deliver k => ∀ c ∈ s.sent[k]?, ¬ BadHeader c → ∀ buf ∈ s.follower.snapshot_rx_buffers.lookup transfer_id,
      buf.expected = c.total_chunks → ∃ b ∈ s.builds, BufferOf deps b buf ∧ c.payload = sliceOf deps b c.chunk_index
  | _ => True

instance (s : Transfer) : ∀ i, Decidable (Unmixed deps transfer_id s i)
  | .deliver k => inferInstanceAs (Decidable (∀ c ∈ s.sent[k]?, _))
  | .lead _ => .isTrue trivial
  | .build _ _ => .isTrue trivial
  | .follow _ => .isTrue trivial

variable {deps transfer_id}

theorem buildSnapshotChunks_pieces {start_chunk chunk_size : Nat} {chunks : List SnapshotChunk}
    (h : buildSnapshotChunks deps e transfer_id start_chunk chunk_size = .ok chunks) :
    e.role = .Leader ∧ ∀ c ∈ chunks, PieceOf deps transfer_id (e.getSnapshot, max chunk_size 1) c := by
  unfold buildSnapshotChunks isLeader at h
  by_cases hl : e.role = .Leader
  · refine ⟨hl, ?_⟩
    simp only [hl, decide_true, not_true_eq_false, if_false, Except.ok.injEq] at h
    subst h
    intro c hc
    obtain ⟨idx, -, rfl⟩ := mem_map.1 hc
    exact ⟨rfl, rfl, rfl, rfl, rfl, rfl⟩
  · simp only [hl, decide_false, Bool.false_eq_true, not_false_eq_true, if_true, reduceCtorEq] at h

variable {b : Moment × Nat}

/-- The first chunk of a buffer sets it up as one of its call. -/
theorem openBuffer_of (hc : PieceOf deps transfer_id b c) : BufferOf deps b (openBuffer {} c) := by
  refine ⟨hc.total_chunks, hc.last_index, hc.term, hc.total_bytes, ?_⟩
  intro idx p hp
  cases hp

variable {buf : ChunkBuffer}

theorem recordChunk_of (hc : c.payload = sliceOf deps b c.chunk_index) (h : BufferOf deps b buf) :
    BufferOf deps b (buf.recordChunk c.chunk_index c.payload) := by
  refine ⟨h.expected, h.last_index, h.term, h.total_bytes, ?_⟩
  intro idx p hp
  simp only [ChunkBuffer.recordChunk] at hp
  by_cases hi : idx = c.chunk_index
  · subst hi
    rw [AList.lookup_insert] at hp
    cases hp
    exact hc
  · rw [AList.lookup_insert_ne hi] at hp
    exact h.chunks idx p hp

/-- Slices that follow each other join to one longer slice. -/
theorem join_slices (payload : Bytes) (size : Nat) {chunks : HashMap Nat Bytes}
    (h : ∀ idx p, chunks.lookup idx = some p → p = (payload.drop (idx * size)).take size) (n i : Nat) (out : Bytes)
    (hj : ChunkBuffer.join chunks i n = .ok out) : out = (payload.drop (i * size)).take (n * size) := by
  induction n generalizing i out with
  | zero =>
    cases hj
    rw [Nat.zero_mul, take_zero]
  | succ n ih =>
    unfold ChunkBuffer.join at hj
    cases hc : chunks.lookup i with
    | none => rw [hc] at hj; cases hj
    | some p =>
      rw [hc] at hj
      cases hr : ChunkBuffer.join chunks (i + 1) n with
      | error err => rw [hr] at hj; cases hj
      | ok rest =>
        rw [hr] at hj
        cases hj
        have hrest := ih (i + 1) rest hr
        have hp := h i p hc
        have hsplit : (n + 1) * size = size + n * size := by rw [Nat.succ_mul, Nat.add_comm]
        have hnext : (i + 1) * size = i * size + size := Nat.succ_mul i size
        rw [hp, hrest, hsplit, take_add, drop_drop, hnext]

/-- A buffer that joins to the announced length joins to what was serialised. -/
theorem assemble_of (h : BufferOf deps b buf) {out : Bytes}
    (ha : buf.assemble = .ok out) : out = payloadOf deps b := by
  unfold ChunkBuffer.assemble at ha
  split at ha
  · cases ha
  · split at ha
    · cases ha
    · next out' hj =>
      split at ha
      · cases ha
      · next hlen =>
        cases ha
        have hout := join_slices (payloadOf deps b) b.2 h.chunks _ _ _ hj
        rw [Nat.zero_mul, drop_zero] at hout
        have hlen : out.length = (payloadOf deps b).length := by
          rw [← h.total_bytes]
          exact not_not.1 hlen
        have hpre : out <+: payloadOf deps b := by
          rw [hout]
          exact take_prefix _ _
        exact hpre.eq_of_length hlen

theorem getD_retainTransfer (buffers : HashMap Nat ChunkBuffer) (t : Nat) :
    (retainTransfer buffers t).getD t {} = (buffers.lookup t).getD {} := by
  unfold retainTransfer HashMap.getD
  cases h : buffers.lookup t with
  | none => simp [AList.lookup_empty]
  | some b => simp only [AList.lookup_insert, Option.getD_some]

/-- The buffer a piece goes into, with the piece in it. -/
def withPiece (e : ReplicationEngine) (c : SnapshotChunk) : ChunkBuffer :=
  (openBuffer ((retainTransfer e.snapshot_rx_buffers c.transfer_id).getD c.transfer_id {}) c).recordChunk
    c.chunk_index c.payload

/-- The buffer of the chunk's transfer as the chunk finds it, set up if need be. -/
def openFor (e : ReplicationEngine) (c : SnapshotChunk) : ChunkBuffer :=
  openBuffer ((e.snapshot_rx_buffers.lookup c.transfer_id).getD {}) c

theorem withPiece_of (h : BufferOf deps b (openFor e c))
    (hc : c.payload = sliceOf deps b c.chunk_index) : BufferOf deps b (withPiece e c) := by
  rw [withPiece, getD_retainTransfer]
  exact recordChunk_of hc h

/-- A chunk is refused by its count, or goes into the buffer. -/
theorem reassemble_openFor (e : ReplicationEngine) (c : SnapshotChunk) :
    reassemble e c = if (openFor e c).expected ≠ c.total_chunks then
        (.error (.CommandFailed
          s!"SnapshotChunk: total_chunks={c.total_chunks} differs from buffered {(openFor e c).expected}"),
          { e with
            snapshot_rx_buffers :=
              AList.insert c.transfer_id (openFor e c) (retainTransfer e.snapshot_rx_buffers c.transfer_id) })
      else if (withPiece e c).isComplete then
        (match (withPiece e c).assemble with
          | .error err => .error err
          | .ok bytes => .ok (some (bytes, (withPiece e c).last_index, (withPiece e c).term)),
          { e with
            snapshot_rx_buffers := (retainTransfer e.snapshot_rx_buffers c.transfer_id).erase c.transfer_id })
      else (.ok none, { e with
        snapshot_rx_buffers :=
          AList.insert c.transfer_id (withPiece e c) (retainTransfer e.snapshot_rx_buffers c.transfer_id) }) := by
  rw [openFor, ← getD_retainTransfer]
  rfl

/-- What a chunk leaves in the buffer: what was there, or the chunk with it. -/
theorem buffered_lookup (h : (buffered e c).snapshot_rx_buffers.lookup c.transfer_id = some buf) :
    e.snapshot_rx_buffers.lookup c.transfer_id = some buf ∨
      ¬ BadHeader c ∧ buf = openFor e c ∧ (openFor e c).expected ≠ c.total_chunks ∨
      ¬ BadHeader c ∧ buf = withPiece e c ∧ (openFor e c).expected = c.total_chunks := by
  unfold buffered at h
  by_cases hbad : BadHeader c
  · rw [if_pos hbad] at h
    exact .inl h
  rw [if_neg hbad, reassemble_openFor] at h
  by_cases hexp : (openFor e c).expected = c.total_chunks
  · rw [if_neg (not_not.2 hexp)] at h
    split at h
    · rw [AList.lookup_erase] at h
      cases h
    · rw [AList.lookup_insert] at h
      exact .inr (.inr ⟨hbad, (Option.some.inj h).symm, hexp⟩)
  · rw [if_pos hexp, AList.lookup_insert] at h
    exact .inr (.inl ⟨hbad, (Option.some.inj h).symm, hexp⟩)

/-- What a chunk completes and installs is what the call of its buffer serialised. -/
theorem installs_of (hrt : deps.snapshot_json.from_slice (payloadOf deps b) = .ok b.1.1) (hw : BufferOf deps b (withPiece e c))
    (hexp : (openFor e c).expected = c.total_chunks) {r : Moment} (hi : installs deps e c = some r) : r = b.1 := by
  unfold installs at hi
  split at hi
  · cases hi
  · rw [reassemble_openFor, if_neg (not_not.2 hexp)] at hi
    by_cases hcomp : (withPiece e c).isComplete
    · simp only [hcomp, if_true] at hi
      cases ha : (withPiece e c).assemble with
      | error err => simp only [ha, reduceCtorEq] at hi
      | ok bytes =>
        have hbytes := assemble_of hw ha
        have hdec : deps.snapshot_json.from_slice bytes = .ok b.1.1 := by
          rw [hbytes, hrt]
        simp only [ha, hdec] at hi
        split at hi
        · cases hi
        · cases hi
          rw [hw.last_index, hw.term]
    · simp only [hcomp, Bool.false_eq_true, if_false, reduceCtorEq] at hi

/-- What installs anything has a good header and the count of its buffer. -/
theorem installs_good {r : Moment} (hi : installs deps e c = some r) :
    ¬ BadHeader c ∧ (openFor e c).expected = c.total_chunks := by
  unfold installs at hi
  split at hi
  · cases hi
  · next hbad =>
    refine ⟨hbad, ?_⟩
    by_contra hexp
    rw [reassemble_openFor, if_pos hexp] at hi
    cases hi

/-! ## The invariant -/

structure TransferInv (deps : Deps) (transfer_id : Nat) (s : Transfer) : Prop where
  now : s.leader.getSnapshot ∈ s.moments
  builds : ∀ b ∈ s.builds, b.1 ∈ s.moments
  reads : ∀ b ∈ s.builds, deps.snapshot_json.from_slice (payloadOf deps b) = .ok b.1.1
  sent : ∀ c ∈ s.sent, ∃ b ∈ s.builds, PieceOf deps transfer_id b c
  buffers : ∀ buf, s.follower.snapshot_rx_buffers.lookup transfer_id = some buf →
    buf.expected ≠ 0 ∧ ∃ b ∈ s.builds, BufferOf deps b buf
  restored : Atomic s

variable {s : Transfer}

/-- The chunk that is taken in finds a buffer of one call, of which it is a piece. -/
theorem TransferInv.taken (h : TransferInv deps transfer_id s) {k : Nat}
    (hu : Unmixed deps transfer_id s (.deliver k)) (hk : s.sent[k]? = some c) (hbad : ¬ BadHeader c)
    (hexp : (openFor s.follower c).expected = c.total_chunks) :
    ∃ b ∈ s.builds, BufferOf deps b (openFor s.follower c) ∧ c.payload = sliceOf deps b c.chunk_index := by
  obtain ⟨b, hb, hc⟩ := h.sent c (mem_of_getElem? hk)
  unfold openFor at hexp ⊢
  rw [hc.transfer_id] at hexp ⊢
  cases hl : s.follower.snapshot_rx_buffers.lookup transfer_id with
  | none => exact ⟨b, hb, openBuffer_of hc, hc.payload⟩
  | some buf =>
    have hopen : openBuffer buf c = buf := if_neg (h.buffers buf hl).1
    rw [hl, Option.getD_some, hopen] at hexp
    rw [Option.getD_some, hopen]
    exact hu c hk hbad buf hl hexp

/-- A report of `applied` comes with the snapshot the chunk completed. -/
theorem handleSnapshotChunk_reports (h : reportsApplied (handleSnapshotChunk deps e c).1 = true) :
    installs deps e c = some (handleSnapshotChunk deps e c).2.getSnapshot := by
  cases hi : installs deps e c with
  | none =>
    obtain ⟨-, hno⟩ := handleSnapshotChunk_none deps hi
    unfold reportsApplied at h
    split at h
    · next f t l applied heq =>
      subst h
      exact absurd heq (hno f t l)
    · cases h
  | some r =>
    obtain ⟨hl, he⟩ := handleSnapshotChunk_some deps hi
    rw [he]
    unfold restoreSnapshot
    rw [if_neg (not_lt.2 hl)]
    rfl

theorem transferInv_deliver {k : Nat} (hu : Unmixed deps transfer_id s (.deliver k))
    (h : TransferInv deps transfer_id s) :
    TransferInv deps transfer_id (transferStep deps transfer_id s (.deliver k)) := by
  simp only [transferStep]
  cases hk : s.sent[k]? with
  | none => exact h
  | some c =>
    obtain ⟨_, -, hc⟩ := h.sent c (mem_of_getElem? hk)
    refine ⟨h.now, h.builds, h.reads, h.sent, ?_, ?_⟩
    · intro buf hl
      rw [handleSnapshotChunk_rx, ← hc.transfer_id] at hl
      rcases buffered_lookup hl with hold | ⟨hbad, rfl, hexp⟩ | ⟨hbad, rfl, hexp⟩
      · exact h.buffers buf (hc.transfer_id ▸ hold)
      · -- Only a buffer that was there before refuses a chunk.
        unfold openFor at hexp ⊢
        rw [hc.transfer_id] at hexp ⊢
        cases hold : s.follower.snapshot_rx_buffers.lookup transfer_id with
        | none =>
          rw [hold] at hexp
          exact absurd rfl hexp
        | some buf =>
          rw [Option.getD_some, openBuffer, if_neg (h.buffers buf hold).1]
          exact h.buffers buf hold
      · obtain ⟨b, hb, hof, hp⟩ := h.taken hu hk hbad hexp
        have hw := withPiece_of hof hp
        refine ⟨?_, b, hb, hw⟩
        rw [hw.expected, ← hof.expected, hexp]
        exact fun h0 => hbad (.inl h0)
    · intro r hr
      simp only at hr
      split at hr
      · next happ =>
        rcases mem_cons.1 hr with rfl | hr
        · have hinst := handleSnapshotChunk_reports happ
          obtain ⟨hbad, hexp⟩ := installs_good hinst
          obtain ⟨b, hb, hof, hp⟩ := h.taken hu hk hbad hexp
          rw [installs_of (h.reads b hb) (withPiece_of hof hp) hexp hinst]
          exact h.builds b hb
        · exact h.restored r hr
      · exact h.restored r hr

theorem transferInv_build {start_chunk chunk_size : Nat}
    (hr : ReadsBack deps s (.build start_chunk chunk_size))
    (h : TransferInv deps transfer_id s) :
    TransferInv deps transfer_id (transferStep deps transfer_id s (.build start_chunk chunk_size)) := by
  simp only [transferStep]
  cases hb : buildSnapshotChunks deps s.leader transfer_id start_chunk chunk_size with
  | error err => exact h
  | ok chunks =>
    obtain ⟨-, hpieces⟩ := buildSnapshotChunks_pieces hb
    refine ⟨h.now, ?_, ?_, ?_, ?_, h.restored⟩
    · intro b hb
      rcases mem_cons.1 hb with rfl | hb
      · exact h.now
      · exact h.builds b hb
    · intro b hb
      rcases mem_cons.1 hb with rfl | hb
      · exact hr
      · exact h.reads b hb
    · intro c hc
      rcases mem_append.1 hc with hc | hc
      · obtain ⟨b, hb, hof⟩ := h.sent c hc
        exact ⟨b, mem_cons_of_mem _ hb, hof⟩
      · exact ⟨_, mem_cons_self, hpieces c hc⟩
    · intro buf hbuf
      obtain ⟨hexp, b, hb, hof⟩ := h.buffers buf hbuf
      exact ⟨hexp, b, mem_cons_of_mem _ hb, hof⟩

theorem transferInv_step {i : TransferInput} (hu : Unmixed deps transfer_id s i) (hr : ReadsBack deps s i)
    (h : TransferInv deps transfer_id s) :
    TransferInv deps transfer_id (transferStep deps transfer_id s i) := by
  cases i with
  | build start_chunk chunk_size => exact transferInv_build hr h
  | deliver k => exact transferInv_deliver hu h
  | lead i =>
    refine ⟨mem_cons_self, ?_, h.reads, h.sent, h.buffers, ?_⟩
    · intro b hb
      exact mem_cons_of_mem _ (h.builds b hb)
    · intro r hr
      exact mem_cons_of_mem _ (h.restored r hr)
  | follow i =>
    simp only [transferStep]
    split
    · exact h
    · next hno =>
      refine ⟨h.now, h.builds, h.reads, h.sent, ?_, h.restored⟩
      intro buf hbuf
      rcases nodeStep_rx deps transfer_id (eq_false_of_ne_true hno) with hx | hx
      · rw [hx] at hbuf
        cases hbuf
      · rw [hx] at hbuf
        exact h.buffers buf hbuf

variable (deps transfer_id)

theorem transferInv_start (env : StepEnv) (config config' : ReplicationConfig) (m m' : ClusterManager) :
    TransferInv deps transfer_id (Transfer.start env config config' m m') := by
  refine ⟨mem_cons_self, by simp [Transfer.start], by simp [Transfer.start], by simp [Transfer.start],
    ?_, by simp [Atomic, Transfer.start]⟩
  intro buf hbuf
  cases hbuf

/-- In every run in which no buffer takes in chunks of two calls, whatever the
follower reports as applied was the leader's state at one moment. -/
theorem transfer_atomic (env : StepEnv) (config config' : ReplicationConfig) (m m' : ClusterManager)
    (is : List TransferInput)
    (hr : Guarded (transferStep deps transfer_id) (ReadsBack deps) (Transfer.start env config config' m m') is)
    (h : Guarded (transferStep deps transfer_id) (Unmixed deps transfer_id) (Transfer.start env config config' m m') is)
    (js : List TransferInput) (hjs : js <+: is) :
    Atomic (js.foldl (transferStep deps transfer_id) (Transfer.start env config config' m m')) := by
  exact (((h.and hr).shorten hjs).inv (TransferInv deps transfer_id)
    (fun s i hi hs => transferInv_step hi.1 hi.2 hs)
    (transferInv_start deps transfer_id env config config' m m')).restored

/-! ## Two runs -/

def jsonString (s : String) : String := "\"" ++ s ++ "\""

def jsonMember (key value : String) : String := jsonString key ++ ":" ++ value

def jsonObject (members : List String) : String := "\x7b" ++ ",".intercalate members ++ "\x7d"

def serviceText (e : ServiceEntry) : String :=
  jsonObject [jsonMember "service_type" (jsonString e.service_type), jsonMember "host" (jsonString e.host),
    jsonMember "port" (toString e.port), jsonMember "node_id" (jsonString e.node_id)]

def leaderText : Option NodeInfo → String
  | none => "null"
  | some n =>
    jsonObject [jsonMember "id" (jsonString n.id), jsonMember "host" (jsonString n.host),
      jsonMember "port" (toString n.port), jsonMember "role" (jsonString "AllInOne")]

/-- The JSON of a snapshot that has services and a leader only. -/
def snapshotText (s : ClusterSnapshot) : String :=
  jsonObject [
    jsonMember "services" (jsonObject (s.services.entries.map fun e =>
      jsonMember e.1 ("[" ++ ",".intercalate (e.2.map serviceText) ++ "]"))),
    jsonMember "segments" (jsonObject []), jsonMember "task_locks" (jsonObject []),
    jsonMember "leader" (leaderText s.leader), jsonMember "segment_queue" (jsonObject [])]

/-- `serde_json` at a type, given its JSON; it reads back the values it is
given. -/
def textCodec {α : Type} (text : α → String) (known : List α) (err : String) : Codec α where
  to_vec a := (text a).toUTF8.data.toList
  from_slice bytes := match known.find? fun a => (text a).toUTF8.data.toList = bytes with
    | some a => .ok a
    | none => .error err

def servicesCodec (known : List ClusterSnapshot) : Codec ClusterSnapshot :=
  textCodec snapshotText known "EOF while parsing an object"

/-- Node `n1` wins term 1 and registers a broker. -/
def becomeTransferLeader : List TransferInput :=
  [.lead (.act .armElection), .lead (.receive stillEnv "n2" (.VoteResponse "n2" 1 true)),
    .lead (.submit stillEnv (.RegisterService ⟨"broker", "h1", 8082, "n7"⟩))]

def transferStart : Transfer :=
  Transfer.start stillEnv (memberConfig "n1" ["n2", "n3"]) (memberConfig "n2" ["n1", "n3"]) (memberManager "n1")
    (memberManager "n2")

def firstState : ClusterSnapshot :=
  (becomeTransferLeader.foldl (transferStep bareDeps 1) transferStart).leader.getSnapshot.1

/-- The broker has moved. -/
def moved : List TransferInput := [.lead (.submit stillEnv (.RegisterService ⟨"broker", "h2", 8082, "n7"⟩))]

def movedState : ClusterSnapshot :=
  ((becomeTransferLeader ++ moved).foldl (transferStep bareDeps 1) transferStart).leader.getSnapshot.1

def movedDeps : Deps := { bareDeps with snapshot_json := servicesCodec [firstState, movedState] }

/-- The chunks of the first state arrive out of order, one of them twice, with a
resume between. Then the broker moves and the new state is sent in smaller
chunks; one of the old chunks comes late, and is refused. -/
def twoSends : List TransferInput :=
  becomeTransferLeader ++ [.build 0 101, .deliver 1, .build 1 101, .deliver 2, .deliver 0] ++ moved ++
    [.build 0 70, .deliver 5, .deliver 0, .deliver 3, .deliver 4]

/-- Broker hosts, leader and last index of a moment. -/
def probe (m : Moment) : List String × Option String × Nat :=
  ((m.1.services.getD "broker" []).map (·.host), m.1.leader.map (·.id), m.2.1)

theorem transfer_atomic_twoSends :
    (twoSends.foldl (transferStep movedDeps 1) transferStart).restored.map probe =
        [(["h2"], some "n1", 2), (["h1"], some "n1", 1)] ∧
      Atomic (twoSends.foldl (transferStep movedDeps 1) transferStart) :=
  ⟨by decide +kernel, transfer_atomic movedDeps 1 stillEnv _ _ _ _ twoSends (by decide +kernel) (by decide +kernel)
    twoSends (prefix_refl _)⟩

/-- The broker moves and another leader is recorded between the two calls. -/
def resumedRun : List TransferInput :=
  becomeTransferLeader ++ [.build 0 101, .lead (.submit stillEnv (.RegisterService ⟨"broker", "h2", 8082, "n7"⟩)),
    .lead (.submit stillEnv (.ElectLeader "overlord" "n2")), .build 1 101, .deliver 0, .deliver 2]

def lastState : ClusterSnapshot :=
  (resumedRun.foldl (transferStep bareDeps 1) transferStart).leader.getSnapshot.1

def resumedDeps : Deps :=
  { bareDeps with snapshot_json := servicesCodec [firstState, lastState, { firstState with leader := lastState.leader }] }

/-- The follower restores the old broker with the new leader, which the leader
never had together. -/
theorem transfer_mixed :
    let s := resumedRun.foldl (transferStep resumedDeps 1) transferStart
    s.restored.map probe = [(["h1"], some "n2", 1)] ∧
      s.moments.map probe = [(["h2"], some "n2", 3), (["h2"], some "n1", 2), (["h1"], some "n1", 1), ([], some "n1", 0),
        ([], some "n1", 0), ([], some "n1", 0)] ∧ ¬ Atomic s := by
  decide +kernel

end FerroDruid.Cluster
