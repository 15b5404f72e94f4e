import FerroDruid.Cluster.Chunks
/-!
# Resuming a chunked snapshot

The acknowledgements of a transfer travel back to the leader, late, twice or
not at all, and the leader resumes the transfer after the highest chunk it was
told of. The follower means to report its highest contiguous chunk; before
chunk 0 has come it reports the chunk at hand instead, and the leader then
skips what is missing below it.

`handleSnapshotChunk_outcome` says what one chunk does to the buffer and what
is answered. The invariant is a case analysis over it.
-/

namespace FerroDruid.Cluster

open FerroDruid.Lib ReplicationEngine List

variable (deps : Deps) (transfer_id : Nat)

/-- An acknowledgement on its way: the follower's id, the chunk, `applied`. -/
abbrev ChunkAck := NodeId × Nat × Bool

/-- A transfer, the acknowledgements the follower has sent, and the chunks it
has acknowledged taking in. -/
structure Resume where
  transfer : Transfer
  acks : List ChunkAck := []
  received : List Nat := []

inductive ResumeInput where
  | transfer (i : TransferInput)
  /-- Any acknowledgement sent so far reaches the leader. -/
  | ack (env : StepEnv) (k : Nat)

def ackOf : Except ClusterError ReplicationMessage → Option ChunkAck
  | .ok (.SnapshotChunkAck follower_id _ last_received_chunk applied) =>
    some (follower_id, last_received_chunk, applied)
  | _ => none

/-- The input brings the leader an acknowledgement under the id of the transfer. -/
def acksTransfer : NodeInput → Bool
  | .receive _ _ (.SnapshotChunkAck _ t _ _) => decide (t = transfer_id)
  | _ => false

def resumeStep (s : Resume) : ResumeInput → Resume
  -- Acknowledgements of this transfer come from this follower only.
  | .transfer (.lead i) =>
    if acksTransfer transfer_id i then s
    else { s with transfer := transferStep deps transfer_id s.transfer (.lead i) }
  | .transfer (.deliver k) => match s.transfer.sent[k]? with
    | some c => match ackOf (handleSnapshotChunk deps s.transfer.follower c).1 with
      | some a =>
        { transfer := transferStep deps transfer_id s.transfer (.deliver k)
          acks := s.acks ++ [a]
          received := c.chunk_index :: s.received }
      | none => { s with transfer := transferStep deps transfer_id s.transfer (.deliver k) }
    | none => s
  | .transfer i => { s with transfer := transferStep deps transfer_id s.transfer i }
  | .ack env k => match s.acks[k]? with
    | some (follower_id, l, applied) =>
      let i : NodeInput := .receive env follower_id (.SnapshotChunkAck follower_id transfer_id l applied)
      { s with transfer := transferStep deps transfer_id s.transfer (.lead i) }
    | none => s

/-- The follower has every chunk below `k`, or has applied the transfer. -/
def Got (s : Resume) (k : Nat) : Prop := s.transfer.restored ≠ [] ∨ ∀ j < k, j ∈ s.received

/-- Wherever the leader would resume, no chunk below is missing. -/
def SkipsNothing (s : Resume) : Prop :=
  ∀ follower_id, Got s (resumeChunkIdx s.transfer.leader follower_id transfer_id)

/-- The chunk that arrives is chunk 0, or chunk 0 is in the buffer, or the
transfer has been applied. -/
def ChunkZeroFirst (s : Resume) : ResumeInput → Prop
  | .transfer (.deliver k) => ∀ c ∈ s.transfer.sent[k]?, c.chunk_index = 0 ∨ s.transfer.restored ≠ [] ∨
      ∃ buf ∈ s.transfer.follower.snapshot_rx_buffers.lookup transfer_id, 0 ∈ buf.chunks
  | _ => True

instance (s : Resume) : ∀ i, Decidable (ChunkZeroFirst transfer_id s i)
  | .transfer (.deliver k) => inferInstanceAs (Decidable (∀ c ∈ s.transfer.sent[k]?, _))
  | .transfer (.lead _) => .isTrue trivial
  | .transfer (.build _ _) => .isTrue trivial
  | .transfer (.follow _) => .isTrue trivial
  | .ack _ _ => .isTrue trivial

/-! ## What one chunk does -/

variable {deps transfer_id}

variable (e : ReplicationEngine) (c : SnapshotChunk)

theorem withPiece_eq :
    withPiece e c = (openBuffer ((e.snapshot_rx_buffers.lookup c.transfer_id).getD {}) c).recordChunk
      c.chunk_index c.payload := by
  rw [withPiece, getD_retainTransfer]

/-- Past its header, a chunk is refused by its count, completes the buffer or stays in it. -/
theorem reassemble_outcome :
    ((∃ err, (reassemble e c).1 = .error err) ∧ (reassemble e c).2.snapshot_rx_buffers.lookup c.transfer_id =
      some (openBuffer ((e.snapshot_rx_buffers.lookup c.transfer_id).getD {}) c)) ∨
    ((withPiece e c).isComplete ∧ (reassemble e c).1 ≠ .ok none ∧
      (reassemble e c).2.snapshot_rx_buffers.lookup c.transfer_id = none) ∨
    (¬ (withPiece e c).isComplete ∧ (reassemble e c).1 = .ok none ∧
      (reassemble e c).2.snapshot_rx_buffers.lookup c.transfer_id = some (withPiece e c)) := by
  have hw := withPiece_eq e c
  unfold reassemble
  simp only [getD_retainTransfer, ← hw]
  by_cases hexp : (openBuffer ((e.snapshot_rx_buffers.lookup c.transfer_id).getD {}) c).expected ≠ c.total_chunks
  · rw [if_pos hexp]
    exact .inl ⟨⟨_, rfl⟩, AList.lookup_insert _⟩
  rw [if_neg hexp]
  by_cases hcomp : (withPiece e c).isComplete
  · rw [if_pos hcomp]
    refine .inr (.inl ⟨hcomp, ?_, AList.lookup_erase _ _⟩)
    cases (withPiece e c).assemble <;> simp
  · rw [if_neg hcomp]
    exact .inr (.inr ⟨hcomp, rfl, AList.lookup_insert _⟩)

variable (deps) in
/-- What is answered to a chunk with a good header. -/
theorem ackOf_handleSnapshotChunk {e : ReplicationEngine} {c : SnapshotChunk} (h : ¬ BadHeader c) :
    ((∃ err, (reassemble e c).1 = .error err) → ackOf (handleSnapshotChunk deps e c).1 = none) ∧
    ((reassemble e c).1 = .ok none → ackOf (handleSnapshotChunk deps e c).1 =
      some (e.config.node_id, lastReceivedChunk (reassemble e c).2 c, false)) ∧
    ((reassemble e c).1 ≠ .ok none → ∀ a, ackOf (handleSnapshotChunk deps e c).1 = some a →
      reportsApplied (handleSnapshotChunk deps e c).1) := by
  simp only [BadHeader, not_or] at h
  unfold handleSnapshotChunk
  rw [if_neg h.1, if_neg h.2.1, if_neg h.2.2]
  dsimp only
  rcases hr : (reassemble e c).1 with err | _ | ⟨bytes, last_index, term⟩
  · simp [ackOf]
  · simp [ackOf]
  · refine ⟨by simp, by simp, fun _ a => ?_⟩
    dsimp only
    cases deps.snapshot_json.from_slice bytes with
    | error err => simp [ackOf]
    | ok snapshot =>
      unfold restoreSnapshot
      split_ifs
      · simp [ackOf]
      · simp [reportsApplied]

variable (deps) in
/-- A chunk is refused by its header or by its count, completes the buffer,
which is then taken out, or stays in it and is acknowledged. -/
theorem handleSnapshotChunk_outcome (e : ReplicationEngine) (c : SnapshotChunk) :
    (BadHeader c ∧ (handleSnapshotChunk deps e c).2 = e ∧ ackOf (handleSnapshotChunk deps e c).1 = none) ∨
    ((handleSnapshotChunk deps e c).2.snapshot_rx_buffers.lookup c.transfer_id =
        some (openBuffer ((e.snapshot_rx_buffers.lookup c.transfer_id).getD {}) c) ∧
      ackOf (handleSnapshotChunk deps e c).1 = none) ∨
    ((withPiece e c).isComplete ∧
      (handleSnapshotChunk deps e c).2.snapshot_rx_buffers.lookup c.transfer_id = none ∧
      ∀ a, ackOf (handleSnapshotChunk deps e c).1 = some a → reportsApplied (handleSnapshotChunk deps e c).1) ∨
    (¬ (withPiece e c).isComplete ∧
      (handleSnapshotChunk deps e c).2.snapshot_rx_buffers.lookup c.transfer_id = some (withPiece e c) ∧
      ackOf (handleSnapshotChunk deps e c).1 =
        some (e.config.node_id, (withPiece e c).highest_contiguous.getD c.chunk_index, false)) := by
  by_cases hbad : BadHeader c
  · refine .inl ⟨hbad, ?_⟩
    unfold handleSnapshotChunk
    unfold BadHeader at hbad
    split_ifs with h0 h1 h2
    · exact ⟨rfl, rfl⟩
    · exact ⟨rfl, rfl⟩
    · exact ⟨rfl, rfl⟩
    · omega
  obtain ⟨herr, hnone, hsome⟩ := ackOf_handleSnapshotChunk deps hbad
  rw [handleSnapshotChunk_rx, buffered, if_neg hbad]
  rcases reassemble_outcome e c with ⟨he, hl⟩ | ⟨hcomp, hne, hl⟩ | ⟨hcomp, he, hl⟩
  · exact .inr (.inl ⟨hl, herr he⟩)
  · exact .inr (.inr (.inl ⟨hcomp, hl, hsome hne⟩))
  · refine .inr (.inr (.inr ⟨hcomp, hl, (hnone he).trans ?_⟩))
    simp [lastReceivedChunk, hl]

/-! ## The buffer counts what it holds -/

/-- The buffer holds received chunks, all of them up to its contiguous mark,
and has a mark as soon as it holds chunk 0. -/
structure Tracks (received : List Nat) (buf : ChunkBuffer) : Prop where
  chunks : ∀ j ∈ buf.chunks, j ∈ received
  contiguous : ∀ h, buf.highest_contiguous = some h → ∀ j ≤ h, j ∈ buf.chunks
  zero : 0 ∈ buf.chunks → buf.highest_contiguous ≠ none

theorem tracks_empty (received : List Nat) : Tracks received {} :=
  ⟨fun j hj => absurd hj (AList.notMem_empty j), by simp, fun h0 => absurd h0 (AList.notMem_empty 0)⟩

variable {received : List Nat} {buf : ChunkBuffer}

theorem Tracks.openBuffer (h : Tracks received buf) (c : SnapshotChunk) :
    Tracks received (openBuffer buf c) := by
  unfold ReplicationEngine.openBuffer
  split_ifs
  · exact ⟨h.chunks, h.contiguous, h.zero⟩
  · exact h

variable {chunks : HashMap Nat Bytes}

/-- The loop that advances the mark stops in front of a chunk that is missing. -/
theorem advance_contiguous {fuel next : Nat} {high : Option Nat} {h : Nat}
    (hn : ∀ j < next, j ∈ chunks) (hh : ∀ x, high = some x → x < next)
    (hr : ChunkBuffer.advance chunks fuel next high = some h) : ∀ j ≤ h, j ∈ chunks := by
  induction fuel generalizing next high with
  | zero => exact fun j hj => hn j (lt_of_le_of_lt hj (hh h hr))
  | succ fuel ih =>
    unfold ChunkBuffer.advance at hr
    split_ifs at hr with hmem
    · refine ih (fun j hj => ?_) (fun x hx => ?_) hr
      · rcases Nat.lt_succ_iff_lt_or_eq.1 hj with hj | rfl
        · exact hn j hj
        · exact hmem
      · cases hx
        exact Nat.lt_succ_self _
    · exact fun j hj => hn j (lt_of_le_of_lt hj (hh h hr))

theorem advance_ne_none (fuel next : Nat) {high : Option Nat} (h : high ≠ none) :
    ChunkBuffer.advance chunks fuel next high ≠ none := by
  induction fuel generalizing next high with
  | zero => exact h
  | succ fuel ih =>
    unfold ChunkBuffer.advance
    split_ifs
    · exact ih _ (Option.some_ne_none _)
    · exact h

theorem Tracks.recordChunk (h : Tracks received buf) (idx : Nat)
    (payload : Bytes) : Tracks (idx :: received) (buf.recordChunk idx payload) := by
  have hmem : ∀ j, j ∈ AList.insert idx payload buf.chunks ↔ j = idx ∨ j ∈ buf.chunks := fun j => AList.mem_insert _
  refine ⟨fun j hj => ?_, fun top hr => ?_, fun h0 => ?_⟩
  · rcases (hmem j).1 hj with rfl | hj
    · exact mem_cons_self
    · exact mem_cons_of_mem _ (h.chunks j hj)
  · refine advance_contiguous ?_ ?_ hr
    · intro j hj
      refine (hmem j).2 (.inr ?_)
      cases hc : buf.highest_contiguous with
      | none =>
        rw [hc] at hj
        exact absurd hj (Nat.not_lt_zero j)
      | some top =>
        rw [hc] at hj
        exact h.contiguous top hc j (Nat.le_of_lt_succ hj)
    · intro x hx
      rw [hx]
      exact Nat.lt_succ_self x
  · unfold ChunkBuffer.recordChunk
    cases hc : buf.highest_contiguous with
    | some top => exact advance_ne_none _ _ (Option.some_ne_none top)
    | none =>
      -- the first turn of the loop meets chunk 0
      have hfuel : (AList.insert idx payload buf.chunks).entries.length =
          (AList.erase idx buf.chunks).entries.length + 1 := by
        rfl
      have hzero : 0 ∈ AList.insert idx payload buf.chunks := h0
      simp only [hfuel, ChunkBuffer.advance, if_pos hzero]
      exact advance_ne_none _ _ (Option.some_ne_none 0)

theorem tracks_getD {o : Option ChunkBuffer} (h : ∀ buf, o = some buf → Tracks received buf) :
    Tracks received (o.getD {}) := by
  cases o with
  | none => exact tracks_empty received
  | some buf => exact h buf rfl

/-! ## The leader's cursors -/

variable (deps transfer_id)

theorem handleSnapshotChunk_tx :
    (handleSnapshotChunk deps e c).2.snapshot_tx_cursors = e.snapshot_tx_cursors :=
  (congrArg Holdings.snapshot_tx_cursors (handleSnapshotChunk_holdings deps e c)).trans
    (by split <;> exact congrArg Holdings.snapshot_tx_cursors (buffered_holdings e c))

/-- Only an acknowledgement of a chunk touches a cursor. -/
theorem nodeStep_tx_eq {e : ReplicationEngine} {i : NodeInput} (h : ∀ env s f t l a, i ≠ .receive env s (.SnapshotChunkAck f t l a)) :
    (nodeStep deps e i).2.snapshot_tx_cursors = e.snapshot_tx_cursors := by
  by_cases hchunk : ∃ env s c, i = .receive env s (.SnapshotChunk c)
  · obtain ⟨env, s, c, rfl⟩ := hchunk
    simp only [nodeStep, receive_snapshotChunk, handleSnapshotChunk_tx]
  obtain ⟨log, st, hframe⟩ := nodeStep_frame deps e (fun env s c hi => hchunk ⟨env, s, c, hi⟩) h
  exact congrArg Holdings.snapshot_tx_cursors hframe

/-- The cursor is at the transfer, or at none yet. -/
def Follows (cur : ChunkCursor) : Prop := cur.transfer_id = none ∨ cur.transfer_id = some transfer_id

variable {g : NodeId} {cur : ChunkCursor}

/-- A cursor that follows the transfer after an acknowledgement of another one
is the cursor from before. -/
theorem receiveSnapshotChunkAck_other {e : ReplicationEngine} {f : NodeId} {t l : Nat} {applied : Bool}
    (ht : t ≠ transfer_id)
    (hl : (receiveSnapshotChunkAck e f t l applied).snapshot_tx_cursors.lookup g = some cur)
    (hc : Follows transfer_id cur) : e.snapshot_tx_cursors.lookup g = some cur := by
  unfold receiveSnapshotChunkAck at hl
  dsimp only at hl
  split_ifs at hl with hstale
  · by_cases hg : g = f
    · subst hg
      rw [AList.lookup_insert, Option.some.injEq] at hl
      unfold HashMap.getD at hl hstale
      cases hlook : e.snapshot_tx_cursors.lookup g with
      | none =>
        rw [hlook] at hstale
        exact absurd rfl hstale.1
      | some cur' =>
        rw [hlook] at hl
        exact congrArg some hl
    · rwa [AList.lookup_insert_ne hg] at hl
  · by_cases hg : g = f
    · subst hg
      rw [AList.lookup_insert, Option.some.injEq] at hl
      subst hl
      rcases hc with hc | hc
      · cases hc
      · exact absurd (Option.some.inj hc) ht
    · rwa [AList.lookup_insert_ne hg] at hl

/-- After an acknowledgement of the transfer, a cursor that follows it stands
at the chunk acknowledged now, or where it or the one before it stood. -/
theorem receiveSnapshotChunkAck_own {e : ReplicationEngine} {f : NodeId} {l top : Nat} {applied : Bool}
    (hl : (receiveSnapshotChunkAck e f transfer_id l applied).snapshot_tx_cursors.lookup g = some cur)
    (hc : Follows transfer_id cur) (ha : cur.last_acked = some top) :
    top = l ∨ ∃ cur', e.snapshot_tx_cursors.lookup g = some cur' ∧ Follows transfer_id cur' ∧
      cur'.last_acked = some top := by
  unfold receiveSnapshotChunkAck at hl
  dsimp only at hl
  split_ifs at hl with hstale
  · by_cases hg : g = f
    · subst hg
      rw [AList.lookup_insert, Option.some.injEq] at hl
      subst hl
      rcases hc with hc | hc
      · exact absurd hc hstale.1
      · exact absurd hc hstale.2
    · rw [AList.lookup_insert_ne hg] at hl
      exact .inr ⟨cur, hl, hc, ha⟩
  · by_cases hg : g = f
    · subst hg
      rw [AList.lookup_insert, Option.some.injEq] at hl
      subst hl
      unfold HashMap.getD at ha hstale
      cases hlook : e.snapshot_tx_cursors.lookup g with
      | none =>
        rw [hlook] at ha
        exact .inl (Option.some.inj ha).symm
      | some cur' =>
        rw [hlook] at ha hstale
        simp only [Option.getD_some, Option.some.injEq] at ha hstale
        have hf : Follows transfer_id cur' := by
          tauto
        cases hlast : cur'.last_acked with
        | none =>
          rw [hlast] at ha
          exact .inl ha.symm
        | some prev =>
          rw [hlast] at ha
          have htop : max prev l = top := ha
          rcases max_choice prev l with hm | hm
          · exact .inr ⟨cur', rfl, hf, by rw [hlast, ← htop, hm]⟩
          · exact .inl (htop.symm.trans hm)
    · rw [AList.lookup_insert_ne hg] at hl
      exact .inr ⟨cur, hl, hc, ha⟩

theorem nodeStep_tx {e : ReplicationEngine} {i : NodeInput} (h : acksTransfer transfer_id i = false)
    (hl : (nodeStep deps e i).2.snapshot_tx_cursors.lookup g = some cur)
    (hc : Follows transfer_id cur) : e.snapshot_tx_cursors.lookup g = some cur := by
  by_cases hm : ∃ env s f t l a, i = .receive env s (.SnapshotChunkAck f t l a)
  · obtain ⟨env, s, f, t, l, a, rfl⟩ := hm
    exact receiveSnapshotChunkAck_other transfer_id (of_decide_eq_false h) hl hc
  · rwa [nodeStep_tx_eq deps fun env s f t l a he => hm ⟨env, s, f, t, l, a, he⟩] at hl

/-! ## No chunk is skipped -/

structure ResumeInv (s : Resume) : Prop where
  sent : ∀ c ∈ s.transfer.sent, c.transfer_id = transfer_id
  buffer : ∀ buf, s.transfer.follower.snapshot_rx_buffers.lookup transfer_id = some buf → Tracks s.received buf
  acks : ∀ a ∈ s.acks, Got s (a.2.1 + 1)
  cursor : ∀ f cur l, s.transfer.leader.snapshot_tx_cursors.lookup f = some cur →
    Follows transfer_id cur → cur.last_acked = some l → Got s (l + 1)

variable {deps transfer_id}

variable {s : Resume} {k : Nat}

theorem Got.mono {s' : Resume} (h : Got s k) (hr : s.transfer.restored ≠ [] → s'.transfer.restored ≠ [])
    (hs : s.received ⊆ s'.received) : Got s' k := by
  rcases h with h | h
  · exact .inl (hr h)
  · exact .inr fun j hj => hs (h j hj)

theorem got_zero (s : Resume) : Got s 0 := .inr fun j hj => absurd hj (Nat.not_lt_zero j)

theorem ResumeInv.skipsNothing (h : ResumeInv transfer_id s) : SkipsNothing transfer_id s := by
  intro f
  unfold resumeChunkIdx
  cases hl : s.transfer.leader.snapshot_tx_cursors.lookup f with
  | none => exact got_zero s
  | some cur =>
    dsimp only
    split_ifs with hc
    · cases ha : cur.last_acked with
      | none => exact got_zero s
      | some l => exact h.cursor f cur l hl (.inr hc) ha
    · exact got_zero s

/-- A step of the run that takes no chunk in and brings no acknowledgement. -/
theorem ResumeInv.frame {t : Transfer} (h : ResumeInv transfer_id s)
    (hsent : ∀ c ∈ t.sent, c ∈ s.transfer.sent ∨ c.transfer_id = transfer_id)
    (hrestored : s.transfer.restored ≠ [] → t.restored ≠ [])
    (hbuf : ∀ buf, t.follower.snapshot_rx_buffers.lookup transfer_id = some buf → Tracks s.received buf)
    (hcur : ∀ f cur, t.leader.snapshot_tx_cursors.lookup f = some cur → Follows transfer_id cur →
      s.transfer.leader.snapshot_tx_cursors.lookup f = some cur) :
    ResumeInv transfer_id { s with transfer := t } where
  sent c hc := (hsent c hc).elim (h.sent c) id
  buffer := hbuf
  acks a ha := (h.acks a ha).mono hrestored (List.Subset.refl _)
  cursor f cur l hl hc ha := (h.cursor f cur l (hcur f cur hl hc) hc ha).mono hrestored (List.Subset.refl _)

theorem mem_withPiece {e : ReplicationEngine} {c : SnapshotChunk} {j : Nat} :
    j ∈ (withPiece e c).chunks ↔
      j = c.chunk_index ∨ j ∈ ((e.snapshot_rx_buffers.lookup c.transfer_id).getD {}).chunks := by
  have hopen : (openBuffer ((e.snapshot_rx_buffers.lookup c.transfer_id).getD {}) c).chunks =
      ((e.snapshot_rx_buffers.lookup c.transfer_id).getD {}).chunks := by
    unfold openBuffer
    split_ifs <;> rfl
  rw [withPiece_eq, ← hopen]
  exact AList.mem_insert _

variable (deps transfer_id) in
theorem restored_deliver {s : Transfer} {c : SnapshotChunk} (hk : s.sent[k]? = some c) :
    (s.restored ≠ [] → (transferStep deps transfer_id s (.deliver k)).restored ≠ []) ∧
      (reportsApplied (handleSnapshotChunk deps s.follower c).1 →
        (transferStep deps transfer_id s (.deliver k)).restored ≠ []) := by
  simp only [transferStep, hk]
  constructor
  · intro h
    split_ifs
    · exact cons_ne_nil _ _
    · exact h
  · intro h
    rw [if_pos h]
    exact cons_ne_nil _ _

theorem resumeInv_deliver (h : ResumeInv transfer_id s)
    (hi : ChunkZeroFirst transfer_id s (.transfer (.deliver k))) :
    ResumeInv transfer_id (resumeStep deps transfer_id s (.transfer (.deliver k))) := by
  simp only [resumeStep]
  cases hk : s.transfer.sent[k]? with
  | none => exact h
  | some c =>
    have hid : c.transfer_id = transfer_id := h.sent c (mem_of_getElem? hk)
    have hold : ∀ buf, s.transfer.follower.snapshot_rx_buffers.lookup c.transfer_id = some buf →
        Tracks s.received buf := by
      rw [hid]
      exact h.buffer
    obtain ⟨hgrow, happlied⟩ := restored_deliver deps transfer_id hk
    have hfollower : (transferStep deps transfer_id s.transfer (.deliver k)).follower =
        (handleSnapshotChunk deps s.transfer.follower c).2 := by simp only [transferStep, hk]
    have hsent : (transferStep deps transfer_id s.transfer (.deliver k)).sent = s.transfer.sent := by
      simp only [transferStep, hk]
    have hleader : (transferStep deps transfer_id s.transfer (.deliver k)).leader = s.transfer.leader := by
      simp only [transferStep, hk]
    have hframe : (∀ buf, (handleSnapshotChunk deps s.transfer.follower c).2.snapshot_rx_buffers.lookup
        c.transfer_id = some buf → Tracks s.received buf) →
        ResumeInv transfer_id { s with transfer := transferStep deps transfer_id s.transfer (.deliver k) } := by
      intro hb
      refine h.frame (fun c hc => .inl (hsent ▸ hc)) hgrow ?_ (fun f cur hl _ => hleader ▸ hl)
      rwa [hfollower, ← hid]
    dsimp only
    rcases handleSnapshotChunk_outcome deps s.transfer.follower c with
      ⟨-, he, ha⟩ | ⟨hl, ha⟩ | ⟨-, hl, hrep⟩ | ⟨-, hl, ha⟩
    · rw [ha]
      exact hframe (by rwa [he])
    · rw [ha]
      refine hframe fun buf hb => ?_
      rw [hl] at hb
      cases hb
      exact (tracks_getD hold).openBuffer c
    -- the buffer is gone; an answer means that its content was applied
    · cases ha : ackOf (handleSnapshotChunk deps s.transfer.follower c).1 with
      | none => exact hframe (by simp [hl])
      | some a =>
        have hdone := happlied (hrep a ha)
        refine ⟨by rw [hsent]; exact h.sent, fun buf hb => ?_, fun a _ => .inl hdone, fun f cur l _ _ _ => .inl hdone⟩
        rw [hfollower, ← hid, hl] at hb
        cases hb
    · have hpiece : Tracks (c.chunk_index :: s.received) (withPiece s.transfer.follower c) := by
        rw [withPiece_eq]
        exact ((tracks_getD hold).openBuffer c).recordChunk _ _
      have hsub : s.received ⊆ c.chunk_index :: s.received := subset_cons_self _ _
      rw [ha]
      refine ⟨by rw [hsent]; exact h.sent, fun buf hb => ?_, fun a hmem => ?_, fun f cur l hlook hc hlast => ?_⟩
      · rw [hfollower, ← hid, hl] at hb
        cases hb
        exact hpiece
      · rcases mem_append.1 hmem with hmem | hmem
        · exact (h.acks a hmem).mono hgrow hsub
        rw [mem_singleton.1 hmem]
        -- with chunk 0 in the buffer, what is reported is its contiguous mark
        have hzero : s.transfer.restored ≠ [] ∨ 0 ∈ (withPiece s.transfer.follower c).chunks := by
          rcases hi c hk with h0 | hr | ⟨buf, hb, h0⟩
          · exact .inr (mem_withPiece.2 (.inl h0.symm))
          · exact .inl hr
          · refine .inr (mem_withPiece.2 (.inr ?_))
            rw [hid, hb]
            exact h0
        rcases hzero with hr | h0
        · exact .inl (hgrow hr)
        · obtain ⟨top, htop⟩ := Option.ne_none_iff_exists'.1 (hpiece.zero h0)
          refine .inr fun j hj => ?_
          simp only [htop, Option.getD_some] at hj
          exact hpiece.chunks j (hpiece.contiguous top htop j (Nat.le_of_lt_succ hj))
      · rw [hleader] at hlook
        exact (h.cursor f cur l hlook hc hlast).mono hgrow hsub

theorem resumeInv_step {i : ResumeInput} (hi : ChunkZeroFirst transfer_id s i)
    (h : ResumeInv transfer_id s) : ResumeInv transfer_id (resumeStep deps transfer_id s i) := by
  cases i with
  | transfer i =>
    cases i with
    | deliver k => exact resumeInv_deliver h hi
    | lead i =>
      simp only [resumeStep]
      split_ifs with hack
      · exact h
      · exact h.frame (fun c hc => .inl hc) id h.buffer fun f cur hl hc =>
          nodeStep_tx deps transfer_id (eq_false_of_ne_true hack) hl hc
    | build start_chunk chunk_size =>
      simp only [resumeStep, transferStep]
      cases hb : buildSnapshotChunks deps s.transfer.leader transfer_id start_chunk chunk_size with
      | error err => exact h
      | ok chunks =>
        refine h.frame (fun c hc => ?_) id h.buffer fun f cur hl _ => hl
        rcases mem_append.1 hc with hc | hc
        · exact .inl hc
        · exact .inr ((buildSnapshotChunks_pieces hb).2 c hc).transfer_id
    | follow i =>
      simp only [resumeStep, transferStep]
      split_ifs with hof
      · exact h
      · refine h.frame (fun c hc => .inl hc) id (fun buf hb => ?_) fun f cur hl _ => hl
        rcases nodeStep_rx deps transfer_id (eq_false_of_ne_true hof) (e := s.transfer.follower) with hx | hx
        · simp only [hx, reduceCtorEq] at hb
        · exact h.buffer buf (hx ▸ hb)
  | ack env k =>
    simp only [resumeStep]
    cases hk : s.acks[k]? with
    | none => exact h
    | some a =>
      have hgot := h.acks _ (mem_of_getElem? hk)
      refine ⟨h.sent, h.buffer, h.acks, fun g cur top hl hc ha => ?_⟩
      rcases receiveSnapshotChunkAck_own transfer_id hl hc ha with rfl | ⟨cur', hl', hc', ha'⟩
      · exact hgot
      · exact h.cursor g cur' top hl' hc' ha'

/-! ## Resending completes the transfer -/

variable (deps transfer_id)

/-- The leader's state is within the caps the follower checks. -/
def Fits (e : ReplicationEngine) : Prop :=
  (deps.snapshot_json.to_vec e.getSnapshot.1).length ≤ MAX_SNAPSHOT_TOTAL_BYTES ∧
    e.getSnapshot.2.1 ≤ MAX_SNAPSHOT_LOG_INDEX

def bringsChunk : NodeInput → Bool
  | .receive _ _ (.SnapshotChunk _) => true
  | _ => false

/-- A call of the transfer serialises what its earlier calls did. -/
def SameSource (s : Transfer) : TransferInput → Prop
  | .build _ chunk_size => s.leader.role = .Leader → ∀ b ∈ s.builds, b = (s.leader.getSnapshot, max chunk_size 1)
  | _ => True

instance (s : Transfer) : ∀ i, Decidable (SameSource s i)
  | .build _ chunk_size =>
    inferInstanceAs (Decidable (_ → ∀ b ∈ s.builds, b = (s.leader.getSnapshot, max chunk_size 1)))
  | .lead _ => .isTrue trivial
  | .deliver _ => .isTrue trivial
  | .follow _ => .isTrue trivial

/-- Every call serialises the same state, one that can be taken in and read
back, and no chunk of another transfer evicts the buffer. -/
def Undisturbed (s : Resume) : ResumeInput → Prop
  | .transfer (.build start_chunk chunk_size) => SameSource s.transfer (.build start_chunk chunk_size) ∧
      ReadsBack deps s.transfer (.build start_chunk chunk_size) ∧ Fits deps s.transfer.leader
  | .transfer (.follow i) => bringsChunk i = false
  | _ => True

instance (e : ReplicationEngine) : Decidable (Fits deps e) := inferInstanceAs (Decidable (_ ∧ _))

instance (s : Resume) : ∀ i, Decidable (Undisturbed deps s i)
  | .transfer (.build start_chunk chunk_size) =>
    inferInstanceAs (Decidable (SameSource s.transfer (.build start_chunk chunk_size) ∧
      ReadsBack deps s.transfer (.build start_chunk chunk_size) ∧ Fits deps s.transfer.leader))
  | .transfer (.follow i) => inferInstanceAs (Decidable (bringsChunk i = false))
  | .transfer (.lead _) => .isTrue trivial
  | .transfer (.deliver _) => .isTrue trivial
  | .ack _ _ => .isTrue trivial

/-- Once the leader has built the chunks from where it resumes, their delivery
in any order, among whatever else leaves the transfer undisturbed, ends with
the transfer applied. -/
def Completes (s : Resume) : Prop :=
  ∀ follower_id chunk_size,
    let i := ResumeInput.transfer (.build (resumeChunkIdx s.transfer.leader follower_id transfer_id) chunk_size)
    let s' := resumeStep deps transfer_id s i
    s.transfer.leader.role = .Leader → Undisturbed deps s i →
    ∀ is, Guarded (resumeStep deps transfer_id) (Undisturbed deps) s' is →
      (∀ n, s.transfer.sent.length ≤ n → n < s'.transfer.sent.length → .transfer (.deliver n) ∈ is) →
      (is.foldl (resumeStep deps transfer_id) s').transfer.restored ≠ []

/-- As long as nothing was applied, the buffer is incomplete and holds every
chunk that was received. -/
structure Underway (s : Resume) : Prop where
  transfer : TransferInv deps transfer_id s.transfer
  same : ∀ b ∈ s.transfer.builds, ∀ b' ∈ s.transfer.builds, b = b'
  index : ∀ c ∈ s.transfer.sent, c.chunk_index < c.total_chunks
  fits : ∀ b ∈ s.transfer.builds, 0 < b.2 ∧ (payloadOf deps b).length ≤ MAX_SNAPSHOT_TOTAL_BYTES ∧
    b.1.2.1 ≤ MAX_SNAPSHOT_LOG_INDEX
  incomplete : s.transfer.restored = [] →
    ∀ buf, s.transfer.follower.snapshot_rx_buffers.lookup transfer_id = some buf →
      ¬ buf.isComplete ∧ ∀ j ∈ buf.chunks, j < buf.expected
  held : s.transfer.restored = [] → ∀ j ∈ s.received,
    ∃ buf, s.transfer.follower.snapshot_rx_buffers.lookup transfer_id = some buf ∧ j ∈ buf.chunks

variable {deps transfer_id}

/-- The chunks of a payload within the cap cover it, and there is at least one. -/
theorem totalChunks_covers {payload : Bytes} {size : Nat} (hs : 0 < size)
    (hp : payload.length ≤ MAX_SNAPSHOT_TOTAL_BYTES) :
    0 < totalChunks payload size ∧ payload.length ≤ totalChunks payload size * size := by
  have hpos : payload.length ≤ size * payload.length := Nat.le_mul_of_pos_left _ hs
  have hsmall : (payload.length + size - 1) / size < payload.length + 1 := by
    refine Nat.div_lt_of_lt_mul ?_
    rw [Nat.mul_succ]
    omega
  have hmod := Nat.mod_lt (payload.length + size - 1) hs
  have hdiv := Nat.div_add_mod (payload.length + size - 1) size
  -- the count is far below the width it is cut to
  have htotal : totalChunks payload size = max ((payload.length + size - 1) / size) 1 := by
    refine Nat.mod_eq_of_lt ?_
    unfold MAX_SNAPSHOT_TOTAL_BYTES at hp
    omega
  rw [htotal]
  refine ⟨by omega, ?_⟩
  have hmax : (payload.length + size - 1) / size * size ≤ max ((payload.length + size - 1) / size) 1 * size :=
    Nat.mul_le_mul_right _ (le_max_left _ _)
  rw [Nat.mul_comm] at hdiv
  omega

/-- A map on distinct indices below `n` holds them all exactly when it holds `n`. -/
theorem length_eq_iff_covers {n : Nat} (h : ∀ j ∈ chunks, j < n) :
    chunks.entries.length = n ↔ ∀ j < n, j ∈ chunks := by
  have hlen : chunks.entries.length = chunks.keys.toFinset.card := by
    rw [toFinset_card_of_nodup chunks.keys_nodup]
    exact (length_map ..).symm
  have hsub : chunks.keys.toFinset ⊆ Finset.range n := fun j hj =>
    Finset.mem_range.2 (h j (AList.mem_keys.2 (mem_toFinset.1 hj)))
  have hcover : (∀ j < n, j ∈ chunks) ↔ Finset.range n ⊆ chunks.keys.toFinset :=
    ⟨fun hc j hj => mem_toFinset.2 (hc j (Finset.mem_range.1 hj)),
      fun hc j hj => mem_toFinset.1 (hc (Finset.mem_range.2 hj))⟩
  rw [hcover, hlen]
  constructor
  · intro hcard
    rw [Finset.eq_of_subset_of_card_le hsub (by rw [Finset.card_range, hcard])]
  · intro hc
    rw [Finset.Subset.antisymm hsub hc, Finset.card_range]

theorem join_ok (n i : Nat) (h : ∀ j, i ≤ j → j < i + n → j ∈ chunks) :
    ∃ out, ChunkBuffer.join chunks i n = .ok out := by
  induction n generalizing i with
  | zero => exact ⟨[], rfl⟩
  | succ n ih =>
    obtain ⟨p, hp⟩ := Option.isSome_iff_exists.1 (AList.lookup_isSome.2 (h i le_rfl (by omega)))
    obtain ⟨rest, hr⟩ := ih (i + 1) fun j hj hlt => h j (by omega) (by omega)
    exact ⟨p ++ rest, by rw [ChunkBuffer.join, hp, hr]⟩

variable {b : Moment × Nat}

/-- A complete buffer of a call joins to what the call serialised. -/
theorem assemble_ok (h : BufferOf deps b buf) (hs : 0 < b.2)
    (hp : (payloadOf deps b).length ≤ MAX_SNAPSHOT_TOTAL_BYTES) (hc : buf.isComplete)
    (hi : ∀ j ∈ buf.chunks, j < buf.expected) : buf.assemble = .ok (payloadOf deps b) := by
  have hfull := (length_eq_iff_covers hi).1 (of_decide_eq_true hc).2
  obtain ⟨out, hout⟩ := join_ok buf.expected 0 fun j _ hj => hfull j (by omega)
  have hslice := join_slices (payloadOf deps b) b.2 h.chunks _ _ _ hout
  have hcovers := (totalChunks_covers hs hp).2
  rw [← h.expected] at hcovers
  rw [Nat.zero_mul, drop_zero, take_of_length_le hcovers] at hslice
  unfold ChunkBuffer.assemble
  rw [if_neg (not_not.2 hc), hout, hslice]
  simp [h.total_bytes]

/-- A chunk of a call completes the transfer, which is then applied, or stays
in the buffer. -/
theorem handleSnapshotChunk_taken {b : Moment × Nat} {c : SnapshotChunk} {e : ReplicationEngine}
    (hc : PieceOf deps transfer_id b c) (hidx : c.chunk_index < c.total_chunks)
    (hs : 0 < b.2) (hp : (payloadOf deps b).length ≤ MAX_SNAPSHOT_TOTAL_BYTES)
    (hl : b.1.2.1 ≤ MAX_SNAPSHOT_LOG_INDEX)
    (hr : deps.snapshot_json.from_slice (payloadOf deps b) = .ok b.1.1) (he : BufferOf deps b (openFor e c))
    (hi : ∀ buf, e.snapshot_rx_buffers.lookup transfer_id = some buf → ∀ j ∈ buf.chunks, j < buf.expected) :
    reportsApplied (handleSnapshotChunk deps e c).1 ∨
      ¬ (withPiece e c).isComplete ∧ (∀ j ∈ (withPiece e c).chunks, j < (withPiece e c).expected) ∧
        (handleSnapshotChunk deps e c).2.snapshot_rx_buffers.lookup transfer_id = some (withPiece e c) ∧
        ∃ a, ackOf (handleSnapshotChunk deps e c).1 = some a := by
  have hw := withPiece_of he hc.payload
  have hexp : (openFor e c).expected = c.total_chunks := he.expected.trans hc.total_chunks.symm
  have hbad : ¬ BadHeader c := by
    simp only [BadHeader, hc.total_bytes]
    omega
  have hbelow : ∀ j ∈ (withPiece e c).chunks, j < (withPiece e c).expected := by
    intro j hj
    rw [hw.expected, ← hc.total_chunks]
    rcases mem_withPiece.1 hj with rfl | hj
    · exact hidx
    · rw [hc.transfer_id] at hj
      cases hlook : e.snapshot_rx_buffers.lookup transfer_id with
      | none =>
        rw [hlook] at hj
        exact absurd hj (AList.notMem_empty j)
      | some buf =>
        rw [hlook] at hj
        have hlt := hi buf hlook j hj
        have hopen : openFor e c = buf := by
          rw [openFor, hc.transfer_id, hlook, Option.getD_some, openBuffer, if_neg (by omega)]
        rwa [← hexp, hopen]
  by_cases hcomp : (withPiece e c).isComplete
  · left
    have hinst : installs deps e c = some b.1 := by
      unfold installs
      rw [if_neg hbad, reassemble_openFor, if_neg (not_not.2 hexp), if_pos hcomp, assemble_ok hw hs hp hcomp hbelow]
      simp only [hr, hw.last_index, hw.term, if_neg (not_lt.2 hl)]
    rw [(handleSnapshotChunk_some deps hinst).2]
    rfl
  · right
    have hnone : (reassemble e c).1 = .ok none := by
      rw [reassemble_openFor, if_neg (not_not.2 hexp), if_neg hcomp]
    have hlook : (reassemble e c).2.snapshot_rx_buffers.lookup transfer_id = some (withPiece e c) := by
      rw [reassemble_openFor, if_neg (not_not.2 hexp), if_neg hcomp, hc.transfer_id]
      exact AList.lookup_insert _
    refine ⟨hcomp, hbelow, ?_, _, (ackOf_handleSnapshotChunk _ hbad).2.1 hnone⟩
    rw [handleSnapshotChunk_rx, buffered, if_neg hbad, hlook]

section

variable (h : Underway deps transfer_id s)

include h

/-- Calls that serialise the same never mix. -/
theorem Underway.unmixed (k : Nat) : Unmixed deps transfer_id s.transfer (.deliver k) := by
  intro c hk _ buf hbuf _
  obtain ⟨b, hb, hc⟩ := h.transfer.sent c (mem_of_getElem? hk)
  obtain ⟨-, b', hb', hof⟩ := h.transfer.buffers buf hbuf
  rw [h.same b' hb' b hb] at hof
  exact ⟨b, hb, hof, hc.payload⟩

/-- The buffer a chunk of a call finds or opens is one of the call. -/
theorem Underway.openFor_of
    (hb : b ∈ s.transfer.builds) {c : SnapshotChunk} (hc : PieceOf deps transfer_id b c) :
    BufferOf deps b (openFor s.transfer.follower c) := by
  rw [openFor, hc.transfer_id]
  cases hl : s.transfer.follower.snapshot_rx_buffers.lookup transfer_id with
  | none => exact openBuffer_of hc
  | some buf =>
    obtain ⟨hexp, b', hb', hof⟩ := h.transfer.buffers buf hl
    rw [Option.getD_some, openBuffer, if_neg hexp, h.same b hb b' hb']
    exact hof

theorem Underway.deliver {c : SnapshotChunk} (hk : s.transfer.sent[k]? = some c) :
    Underway deps transfer_id (resumeStep deps transfer_id s (.transfer (.deliver k))) ∧
      ((resumeStep deps transfer_id s (.transfer (.deliver k))).transfer.restored ≠ [] ∨
        c.chunk_index ∈ (resumeStep deps transfer_id s (.transfer (.deliver k))).received) := by
  have hmem := mem_of_getElem? hk
  obtain ⟨b, hb, hc⟩ := h.transfer.sent c hmem
  obtain ⟨hs, hp, hl⟩ := h.fits b hb
  obtain ⟨hgrow, happlied⟩ := restored_deliver deps transfer_id hk
  have htransfer := transferInv_deliver (h.unmixed k) h.transfer
  have hfollower : (transferStep deps transfer_id s.transfer (.deliver k)).follower =
      (handleSnapshotChunk deps s.transfer.follower c).2 := by simp only [transferStep, hk]
  have hsent : (transferStep deps transfer_id s.transfer (.deliver k)).sent = s.transfer.sent := by
    simp only [transferStep, hk]
  have hbuilds : (transferStep deps transfer_id s.transfer (.deliver k)).builds = s.transfer.builds := by
    simp only [transferStep, hk]
  -- whatever is answered, the transfer itself takes the same step
  have hstep : (resumeStep deps transfer_id s (.transfer (.deliver k))).transfer =
      transferStep deps transfer_id s.transfer (.deliver k) := by
    simp only [resumeStep, hk]
    split <;> rfl
  by_cases hdone : (transferStep deps transfer_id s.transfer (.deliver k)).restored = []
  · have hopen : s.transfer.restored = [] := by
      by_contra hne
      exact hgrow hne hdone
    rcases handleSnapshotChunk_taken hc (h.index c hmem) hs hp hl (h.transfer.reads b hb) (h.openFor_of hb hc)
      (fun buf hbuf => (h.incomplete hopen buf hbuf).2) with happ | ⟨hcomp, hbelow, hlook, a, ha⟩
    · exact absurd hdone (happlied happ)
    have hreceived : (resumeStep deps transfer_id s (.transfer (.deliver k))).received =
        c.chunk_index :: s.received := by simp only [resumeStep, hk, ha]
    refine ⟨⟨by rwa [hstep], by rw [hstep, hbuilds]; exact h.same, by rw [hstep, hsent]; exact h.index, by rw [hstep, hbuilds]; exact h.fits, ?_, ?_⟩,
      .inr (by rw [hreceived]; exact mem_cons_self)⟩
    · intro _ buf hbuf
      rw [hstep, hfollower, hlook] at hbuf
      cases hbuf
      exact ⟨hcomp, hbelow⟩
    · intro _ j hj
      rw [hreceived] at hj
      refine ⟨withPiece s.transfer.follower c, by rw [hstep, hfollower, hlook], mem_withPiece.2 ?_⟩
      rcases mem_cons.1 hj with rfl | hj
      · exact .inl rfl
      · obtain ⟨buf, hbuf, hjb⟩ := h.held hopen j hj
        rw [hc.transfer_id, hbuf]
        exact .inr hjb
  · refine ⟨⟨by rwa [hstep], by rw [hstep, hbuilds]; exact h.same, by rw [hstep, hsent]; exact h.index, by rw [hstep, hbuilds]; exact h.fits, ?_, ?_⟩,
      .inl (by rwa [hstep])⟩
    · exact fun he => absurd (hstep ▸ he) hdone
    · exact fun he => absurd (hstep ▸ he) hdone

/-- A step that neither takes a chunk in nor touches the buffer. -/
theorem Underway.frame {t : Transfer}
    (ht : TransferInv deps transfer_id t) (hsame : ∀ b ∈ t.builds, ∀ b' ∈ t.builds, b = b')
    (hindex : ∀ c ∈ t.sent, c ∈ s.transfer.sent ∨ c.chunk_index < c.total_chunks)
    (hfits : ∀ b ∈ t.builds, b ∈ s.transfer.builds ∨ 0 < b.2 ∧
      (payloadOf deps b).length ≤ MAX_SNAPSHOT_TOTAL_BYTES ∧ b.1.2.1 ≤ MAX_SNAPSHOT_LOG_INDEX)
    (hr : t.restored = s.transfer.restored)
    (hb : t.follower.snapshot_rx_buffers = s.transfer.follower.snapshot_rx_buffers) :
    Underway deps transfer_id { s with transfer := t } where
  transfer := ht
  same := hsame
  index c hc := (hindex c hc).elim (h.index c) id
  fits b hmem := (hfits b hmem).elim (h.fits b) id
  incomplete he buf hbuf := h.incomplete (hr ▸ he) buf (hb ▸ hbuf)
  held he j hj := by
    obtain ⟨buf, hbuf, hjb⟩ := h.held (hr ▸ he) j hj
    exact ⟨buf, hb ▸ hbuf, hjb⟩

end

variable (deps transfer_id) in
/-- What a call builds: the chunks from the given index on. -/
theorem buildSnapshotChunks_ok {e : ReplicationEngine} (start_chunk chunk_size : Nat) (h : e.role = .Leader) :
    buildSnapshotChunks deps e transfer_id start_chunk chunk_size =
      .ok ((List.range' start_chunk
          (totalChunks (payloadOf deps (e.getSnapshot, max chunk_size 1)) (max chunk_size 1) - start_chunk)).map
        (chunkAt transfer_id (max chunk_size 1)
          (totalChunks (payloadOf deps (e.getSnapshot, max chunk_size 1)) (max chunk_size 1))
          e.getSnapshot.2.1 e.getSnapshot.2.2 (payloadOf deps (e.getSnapshot, max chunk_size 1)))) := by
  unfold buildSnapshotChunks isLeader
  simp only [h, decide_true, not_true_eq_false, if_false]
  rfl

theorem Underway.step {i : ResumeInput} (h : Underway deps transfer_id s) (hi : Undisturbed deps s i) :
    Underway deps transfer_id (resumeStep deps transfer_id s i) := by
  cases i with
  | transfer i =>
    cases i with
    | deliver k =>
      cases hk : s.transfer.sent[k]? with
      | none =>
        simp only [resumeStep, hk]
        exact h
      | some c => exact (h.deliver hk).1
    | lead i =>
      simp only [resumeStep]
      split_ifs with hack
      · exact h
      · exact h.frame (transferInv_step (i := .lead i) trivial trivial h.transfer) h.same (fun c hc => .inl hc)
          (fun b hb => .inl hb) rfl rfl
    | build start_chunk chunk_size =>
      obtain ⟨hsame, hreads, hp, hl⟩ := hi
      have ht := transferInv_step (i := .build start_chunk chunk_size) trivial hreads h.transfer
      simp only [resumeStep]
      by_cases hlead : s.transfer.leader.role = .Leader
      · have hb := buildSnapshotChunks_ok deps transfer_id start_chunk chunk_size hlead
        refine h.frame ht ?_ (fun c hc => ?_) (fun b hmem => ?_) ?_ ?_
        · have hnow : ∀ b ∈ (transferStep deps transfer_id s.transfer (.build start_chunk chunk_size)).builds,
              b = (s.transfer.leader.getSnapshot, max chunk_size 1) := by
            intro b hmem
            simp only [transferStep, hb] at hmem
            rcases mem_cons.1 hmem with rfl | hmem
            · rfl
            · exact hsame hlead b hmem
          intro b hmem b' hmem'
          rw [hnow b hmem, hnow b' hmem']
        · simp only [transferStep, hb] at hc
          rcases mem_append.1 hc with hc | hc
          · exact .inl hc
          · obtain ⟨idx, hidx, rfl⟩ := mem_map.1 hc
            rw [mem_range'_1] at hidx
            refine .inr ?_
            simp only [chunkAt]
            omega
        · simp only [transferStep, hb] at hmem
          rcases mem_cons.1 hmem with rfl | hmem
          · exact .inr ⟨by simp only; omega, hp, hl⟩
          · exact .inl hmem
        · simp only [transferStep, hb]
        · simp only [transferStep, hb]
      · have herr : transferStep deps transfer_id s.transfer (.build start_chunk chunk_size) = s.transfer := by
          simp [transferStep, buildSnapshotChunks, isLeader, hlead]
        rw [herr]
        exact h
    | follow i =>
      refine h.frame (transferInv_step (i := .follow i) trivial trivial h.transfer) ?_ ?_ ?_ ?_ ?_ <;>
        simp only [transferStep] <;> split_ifs
      · exact h.same
      · exact h.same
      · exact fun c hc => .inl hc
      · exact fun c hc => .inl hc
      · exact fun b hb => .inl hb
      · exact fun b hb => .inl hb
      · rfl
      · rfl
      · rfl
      · refine nodeStep_rx_eq deps fun env sender c hc => ?_
        subst hc
        cases hi
  | ack env k =>
    simp only [resumeStep]
    cases hk : s.acks[k]? with
    | none => exact h
    | some a =>
      exact h.frame (transferInv_step (i := .lead _) trivial trivial h.transfer) h.same (fun c hc => .inl hc)
        (fun b hb => .inl hb) rfl rfl

/-! ## Whole runs -/

/-- What has been sent, built, received or restored stays so. -/
structure Grows (s s' : Resume) : Prop where
  sent : s.transfer.sent <+: s'.transfer.sent
  builds : s.transfer.builds ⊆ s'.transfer.builds
  received : s.received ⊆ s'.received
  restored : s.transfer.restored ≠ [] → s'.transfer.restored ≠ []

theorem Grows.refl (s : Resume) : Grows s s := ⟨prefix_refl _, List.Subset.refl _, List.Subset.refl _, id⟩

theorem Grows.trans {s' s'' : Resume} (h : Grows s s') (h' : Grows s' s'') : Grows s s'' :=
  ⟨h.sent.trans h'.sent, fun _ hb => h'.builds (h.builds hb), fun _ hj => h'.received (h.received hj),
    fun hr => h'.restored (h.restored hr)⟩

variable (deps transfer_id)

theorem grows_step (s : Resume) (i : ResumeInput) : Grows s (resumeStep deps transfer_id s i) := by
  cases i with
  | transfer i =>
    cases i with
    | deliver k =>
      cases hk : s.transfer.sent[k]? with
      | none =>
        simp only [resumeStep, hk]
        exact .refl s
      | some c =>
        have hgrow := (restored_deliver deps transfer_id hk).1
        have hsent : (transferStep deps transfer_id s.transfer (.deliver k)).sent = s.transfer.sent := by
          simp only [transferStep, hk]
        have hbuilds : (transferStep deps transfer_id s.transfer (.deliver k)).builds = s.transfer.builds := by
          simp only [transferStep, hk]
        simp only [resumeStep, hk]
        split
        · exact ⟨hsent ▸ prefix_refl _, hbuilds ▸ List.Subset.refl _, subset_cons_self _ _, hgrow⟩
        · exact ⟨hsent ▸ prefix_refl _, hbuilds ▸ List.Subset.refl _, List.Subset.refl _, hgrow⟩
    | lead i =>
      simp only [resumeStep]
      split_ifs
      · exact .refl s
      · exact ⟨prefix_refl _, List.Subset.refl _, List.Subset.refl _, id⟩
    | build start_chunk chunk_size =>
      simp only [resumeStep, transferStep]
      cases buildSnapshotChunks deps s.transfer.leader transfer_id start_chunk chunk_size with
      | error err => exact .refl s
      | ok chunks => exact ⟨prefix_append _ _, subset_cons_self _ _, List.Subset.refl _, id⟩
    | follow i =>
      simp only [resumeStep, transferStep]
      split_ifs
      · exact .refl s
      · exact ⟨prefix_refl _, List.Subset.refl _, List.Subset.refl _, id⟩
  | ack env k =>
    simp only [resumeStep]
    cases s.acks[k]? with
    | none => exact .refl s
    | some a => exact ⟨prefix_refl _, List.Subset.refl _, List.Subset.refl _, id⟩

theorem grows_run (s : Resume) (is : List ResumeInput) : Grows s (is.foldl (resumeStep deps transfer_id) s) := by
  induction is generalizing s with
  | nil => exact .refl s
  | cons i is ih => exact (grows_step deps transfer_id s i).trans (ih _)

variable {deps transfer_id}

/-- A chunk delivered somewhere in an undisturbed run is received, or the transfer was applied. -/
theorem received_of_delivered {is : List ResumeInput} {n : Nat} {c : SnapshotChunk}
    (h : Underway deps transfer_id s) (hg : Guarded (resumeStep deps transfer_id) (Undisturbed deps) s is)
    (hmem : .transfer (.deliver n) ∈ is) (hn : s.transfer.sent[n]? = some c) :
    (is.foldl (resumeStep deps transfer_id) s).transfer.restored ≠ [] ∨
      c.chunk_index ∈ (is.foldl (resumeStep deps transfer_id) s).received := by
  induction is generalizing s with
  | nil => simp at hmem
  | cons i is ih =>
    have hgrow := grows_run deps transfer_id (resumeStep deps transfer_id s i) is
    rcases mem_cons.1 hmem with rfl | hmem
    · rcases (h.deliver hn).2 with hr | hr
      · exact .inl (hgrow.restored hr)
      · exact .inr (hgrow.received hr)
    · refine ih (h.step hg.1) hg.2 hmem ?_
      obtain ⟨rest, hrest⟩ := (grows_step deps transfer_id s i).sent
      rw [← hrest, getElem?_append_left (List.getElem?_eq_some_iff.1 hn).1, hn]

/-- The buffer of an unapplied transfer is never complete, so a transfer whose
every chunk was received has been applied. -/
theorem Underway.applied (h : Underway deps transfer_id s) (hb : b ∈ s.transfer.builds)
    (hall : ∀ j < totalChunks (payloadOf deps b) b.2, s.transfer.restored ≠ [] ∨ j ∈ s.received) :
    s.transfer.restored ≠ [] := by
  intro hopen
  have hheld : ∀ j < totalChunks (payloadOf deps b) b.2, j ∈ s.received := fun j hj =>
    (hall j hj).resolve_left (not_not.2 hopen)
  obtain ⟨hs, hp, -⟩ := h.fits b hb
  have hpos := (totalChunks_covers hs hp).1
  obtain ⟨buf, hbuf, -⟩ := h.held hopen 0 (hheld 0 hpos)
  obtain ⟨hcomp, hbelow⟩ := h.incomplete hopen buf hbuf
  obtain ⟨-, b', hb', hof⟩ := h.transfer.buffers buf hbuf
  rw [h.same b' hb' b hb] at hof
  refine hcomp (decide_eq_true ⟨by rw [hof.expected]; exact hpos, (length_eq_iff_covers hbelow).2 fun j hj => ?_⟩)
  rw [hof.expected] at hj
  obtain ⟨buf', hbuf', hmem⟩ := h.held hopen j (hheld j hj)
  rw [hbuf] at hbuf'
  cases hbuf'
  exact hmem

theorem Underway.completes (h : Underway deps transfer_id s) (hk : SkipsNothing transfer_id s) :
    Completes deps transfer_id s := by
  intro f chunk_size i s' hlead hi is hg hall
  have hstart := h.step hi
  have hend : Underway deps transfer_id (is.foldl (resumeStep deps transfer_id) s') :=
    hg.inv _ (fun _ _ hok hu => hu.step hok) hstart
  have hlater := grows_run deps transfer_id s' is
  have hgrow := (grows_step deps transfer_id s i).trans hlater
  have hbuild := buildSnapshotChunks_ok deps transfer_id
    (resumeChunkIdx s.transfer.leader f transfer_id) chunk_size hlead
  have hbuilds : (s.transfer.leader.getSnapshot, max chunk_size 1) ∈ s'.transfer.builds := by
    simp only [s', i, resumeStep, transferStep, hbuild]
    exact mem_cons_self
  refine hend.applied (hlater.builds hbuilds) fun j hj => ?_
  by_cases hlow : j < resumeChunkIdx s.transfer.leader f transfer_id
  -- below the resume point nothing is missing
  · rcases hk f with hr | hr
    · exact .inl (hgrow.restored hr)
    · exact .inr (hgrow.received (hr j hlow))
  -- from there on the chunk was built again
  · have hsent := congrArg (·.transfer.sent) (show s' = resumeStep deps transfer_id s i from rfl)
    simp only [i, resumeStep, transferStep, hbuild] at hsent
    obtain ⟨d, rfl⟩ := Nat.exists_eq_add_of_le (not_lt.1 hlow)
    have hd : d < totalChunks (payloadOf deps (s.transfer.leader.getSnapshot, max chunk_size 1)) (max chunk_size 1) -
        resumeChunkIdx s.transfer.leader f transfer_id := by
      simp only at hj
      omega
    have hat : s'.transfer.sent[s.transfer.sent.length + d]? = some (chunkAt transfer_id (max chunk_size 1)
        (totalChunks (payloadOf deps (s.transfer.leader.getSnapshot, max chunk_size 1)) (max chunk_size 1))
        s.transfer.leader.getSnapshot.2.1 s.transfer.leader.getSnapshot.2.2
        (payloadOf deps (s.transfer.leader.getSnapshot, max chunk_size 1))
        (resumeChunkIdx s.transfer.leader f transfer_id + d)) := by
      rw [hsent, getElem?_append_right (Nat.le_add_right _ _), Nat.add_sub_cancel_left, getElem?_map,
        getElem?_range' hd, Nat.one_mul, Option.map_some]
    exact received_of_delivered hstart hg
      (hall _ (Nat.le_add_right _ _) (List.getElem?_eq_some_iff.1 hat).1) hat

variable (deps transfer_id)

def Resume.start (env : StepEnv) (config config' : ReplicationConfig) (m m' : ClusterManager) : Resume where
  transfer := Transfer.start env config config' m m'

theorem resumeInv_start (env : StepEnv) (config config' : ReplicationConfig) (m m' : ClusterManager) :
    ResumeInv transfer_id (Resume.start env config config' m m') := by
  refine ⟨by simp [Resume.start, Transfer.start], ?_, by simp [Resume.start], ?_⟩
  · intro buf hbuf
    cases hbuf
  · intro f cur l hl
    cases hl

theorem underway_start (env : StepEnv) (config config' : ReplicationConfig) (m m' : ClusterManager) :
    Underway deps transfer_id (Resume.start env config config' m m') where
  transfer := transferInv_start deps transfer_id env config config' m m'
  same := by simp [Resume.start, Transfer.start]
  index := by simp [Resume.start, Transfer.start]
  fits := by simp [Resume.start, Transfer.start]
  incomplete := fun _ buf hbuf => by cases hbuf
  held := by simp [Resume.start]

/-- In every run in which chunk 0 is the first of the transfer to be buffered,
the leader never resumes past a chunk that the follower is missing, and when
the transfer is otherwise undisturbed, resending from there completes it. -/
theorem resume_skips_nothing (env : StepEnv) (config config' : ReplicationConfig) (m m' : ClusterManager)
    (is : List ResumeInput)
    (h : Guarded (resumeStep deps transfer_id) (ChunkZeroFirst transfer_id) (Resume.start env config config' m m') is)
    (js : List ResumeInput) (hjs : js <+: is) :
    SkipsNothing transfer_id (js.foldl (resumeStep deps transfer_id) (Resume.start env config config' m m')) ∧
      (Guarded (resumeStep deps transfer_id) (Undisturbed deps) (Resume.start env config config' m m') js →
        Completes deps transfer_id (js.foldl (resumeStep deps transfer_id) (Resume.start env config config' m m'))) := by
  have hinv : ResumeInv transfer_id (js.foldl (resumeStep deps transfer_id) (Resume.start env config config' m m')) :=
    (h.shorten hjs).inv _ (fun _ _ hi hs => resumeInv_step hi hs) (resumeInv_start transfer_id env config config' m m')
  refine ⟨hinv.skipsNothing, fun hu => ?_⟩
  exact (hu.inv (Underway deps transfer_id) (fun _ _ hi hs => hs.step hi)
    (underway_start deps transfer_id env config config' m m')).completes hinv.skipsNothing

/-! ## Two runs -/

def resumeStart : Resume where
  transfer := transferStart

def firstDeps : Deps := { bareDeps with snapshot_json := servicesCodec [firstState] }

/-- Chunk 0 arrives, its acknowledgement twice. -/
def inOrderRun : List ResumeInput :=
  becomeTransferLeader.map .transfer ++
    [.transfer (.build 0 101), .transfer (.deliver 0), .ack stillEnv 0, .ack stillEnv 0]

theorem resume_after_first_chunk :
    resumeChunkIdx (inOrderRun.foldl (resumeStep firstDeps 1) resumeStart).transfer.leader "n2" 1 = 1 ∧
      SkipsNothing 1 (inOrderRun.foldl (resumeStep firstDeps 1) resumeStart) ∧
      Completes firstDeps 1 (inOrderRun.foldl (resumeStep firstDeps 1) resumeStart) := by
  obtain ⟨hskip, hcompletes⟩ := resume_skips_nothing firstDeps 1 stillEnv (memberConfig "n1" ["n2", "n3"])
    (memberConfig "n2" ["n1", "n3"]) (memberManager "n1") (memberManager "n2") inOrderRun (by decide +kernel)
    inOrderRun (prefix_refl _)
  exact ⟨by decide +kernel, hskip, hcompletes (by decide +kernel)⟩

/-- Chunk 0 is lost on the way and chunk 1 arrives. -/
def lostFirstRun : List ResumeInput :=
  becomeTransferLeader.map .transfer ++ [.transfer (.build 0 101), .transfer (.deliver 1), .ack stillEnv 0]

theorem lostFirstRun_state :
    let s := lostFirstRun.foldl (resumeStep firstDeps 1) resumeStart
    resumeChunkIdx s.transfer.leader "n2" 1 = 2 ∧ s.received = [1] ∧ s.transfer.restored = [] ∧
      s.transfer.sent.length = 2 ∧
      (resumeStep firstDeps 1 s (.transfer (.build 2 101))).transfer.sent.length = 2 := by
  decide +kernel

/-- The leader resumes past the last of the two chunks, so that it has nothing
to resend, and the follower never gets chunk 0. -/
theorem resume_skips_lost_first :
    let s := lostFirstRun.foldl (resumeStep firstDeps 1) resumeStart
    resumeChunkIdx s.transfer.leader "n2" 1 = 2 ∧ 0 ∉ s.received ∧ ¬ SkipsNothing 1 s ∧
      (resumeStep firstDeps 1 s (.transfer (.build 2 101))).transfer.sent.length = s.transfer.sent.length := by
  obtain ⟨hresume, hreceived, hrestored, hsent, hagain⟩ := lostFirstRun_state
  refine ⟨hresume, by simp [hreceived], fun hskip => ?_, hagain.trans hsent.symm⟩
  have hgot := hskip "n2"
  rw [hresume] at hgot
  rcases hgot with hr | hr
  · exact hr hrestored
  · have := hr 0 (by decide)
    simp [hreceived] at this

end FerroDruid.Cluster
