import FerroDruid.Kafka.Activation
/-!
# The arms of the poll loop

Every arm of `run_streaming_loop`, and everything Kafka may do in between,
keeps any predicate on views that is `View.Closed`; what is left is the
activation pass an input ends with (`passOf`). For views in order (`Ok`) only
the pass of the seek-retry arm needs something of the broker, which is
`RestoreOk`: after a failed publish the pass runs with an empty buffer, and so
does the first one.
-/

namespace FerroDruid.Kafka

open Lib List

/-! ## Re-arming -/

/-- The state a touched partition is re-armed to. -/
def rearmedState (frontier : HashMap Partition PartitionResume) (resumeFloor : HashMap Partition ℤ) (p : Partition)
    (st : SeekGateState) : SeekGateState :=
  match resumeFloor.lookup p with
  | some floor => .needsRestore floor
  | none => if p ∈ frontier then .needsTarget else st

section Rearm

variable (frontier : HashMap Partition PartitionResume) (resumeFloor : HashMap Partition ℤ) (events : RebalanceEvents)

theorem rearmPartition_spec (g : ResumeSeekGate) (p : Partition) :
    (∀ q, (rearmPartition frontier resumeFloor events g p).state q =
      if q = p then rearmedState frontier resumeFloor p (g.state p) else g.state q) ∧
      (rearmPartition frontier resumeFloor events g p).recreationFloor = g.recreationFloor := by
  have hun : ∀ b : Bool, (∀ q, (if b then g.noteUnpaused p else g).state q = g.state q) ∧
      (if b then g.noteUnpaused p else g).recreationFloor = g.recreationFloor := by
    intro b
    cases b <;> exact ⟨fun _ => rfl, rfl⟩
  unfold rearmPartition rearmedState
  obtain ⟨hst, hre⟩ := hun (events.lostAll || decide (p ∈ events.revoked))
  generalize (if (events.lostAll || decide (p ∈ events.revoked)) = true then g.noteUnpaused p else g) = g' at hst hre ⊢
  cases resumeFloor.lookup p with
  | some f => exact ⟨fun q => by simp [hst q], hre⟩
  | none =>
    split_ifs with hp
    · exact ⟨fun q => by simp [hst q], hre⟩
    · refine ⟨fun q => ?_, hre⟩
      rw [hst q]
      split_ifs with hq
      · rw [hq]
      · rfl

theorem foldl_rearmPartition_spec (ps : List Partition) (g : ResumeSeekGate) :
    (∀ q, (ps.foldl (rearmPartition frontier resumeFloor events) g).state q =
      if q ∈ ps then rearmedState frontier resumeFloor q (g.state q) else g.state q) ∧
      (ps.foldl (rearmPartition frontier resumeFloor events) g).recreationFloor = g.recreationFloor := by
  induction ps generalizing g with
  | nil => exact ⟨fun q => by simp, rfl⟩
  | cons p ps ih =>
    obtain ⟨hst, hre⟩ := rearmPartition_spec frontier resumeFloor events g p
    obtain ⟨ihst, ihre⟩ := ih (rearmPartition frontier resumeFloor events g p)
    refine ⟨fun q => ?_, ihre.trans hre⟩
    rw [foldl_cons, ihst q, hst q]
    -- Re-arming twice is re-arming once.
    have hidem : ∀ st, rearmedState frontier resumeFloor q (rearmedState frontier resumeFloor q st) =
        rearmedState frontier resumeFloor q st := by
      intro st
      unfold rearmedState
      cases resumeFloor.lookup q with
      | some f => rfl
      | none =>
        split_ifs <;> rfl
    by_cases hq : q = p
    · subst hq
      simp [hidem]
    · simp [hq]

theorem rearmGateAfterRebalance_spec (g : ResumeSeekGate) :
    (∀ q, (rearmGateAfterRebalance g frontier resumeFloor events).state q =
      if events.isEmpty = false ∧ q ∈ affectedPartitions frontier resumeFloor events then
        rearmedState frontier resumeFloor q (g.state q)
      else g.state q) ∧
      (rearmGateAfterRebalance g frontier resumeFloor events).recreationFloor = g.recreationFloor := by
  unfold rearmGateAfterRebalance
  cases events.isEmpty with
  | true => exact ⟨fun q => by simp, rfl⟩
  | false => simpa using foldl_rearmPartition_spec frontier resumeFloor events (affectedPartitions frontier resumeFloor events) g

/-- A rebalance reaches every partition it names, and after an error every one
that has a floor. -/
theorem mem_affectedPartitions {p : Partition} (h : events.Touches p) (hf : resumeFloor.lookup p ≠ none) :
    p ∈ affectedPartitions frontier resumeFloor events := by
  unfold affectedPartitions
  rw [mem_dedup, mem_append, mem_append]
  rcases h with h | h | h
  · right
    rw [if_pos h, mem_append]
    exact .inr (AList.mem_keys.1 (AList.lookup_isSome.1 (Option.isSome_iff_ne_none.2 hf)))
  · exact .inl (.inl h)
  · exact .inl (.inr h)

end Rearm

theorem lookup_safeResumeFrontier (s : Session) (p : Partition) :
    (safeResumeFrontier s.contiguous s.buffer).lookup p = (s.view p).safeFloor := by
  unfold safeResumeFrontier
  rw [HashMap.lookup_foldl_insert extendFloor s.buffer.offsetSpans s.contiguous.next p]
  dsimp only [Session.view]
  cases s.buffer.offsetSpans.lookup p <;> rfl

namespace Session

variable {O F : View → Prop}

/-- The shape of an invariant: every view satisfies `O`, and the join drive
consumes nothing. -/
structure Steady (O : View → Prop) (s : Session) : Prop where
  holds : s.Holds O
  joining : ∀ e, s.phase = .joining e → ∀ p, (s.view p).next = none ∧ (s.view p).armed = false

variable {s : Session}

theorem Steady.of_not_joining (h : s.Holds O) (hp : ∀ e, s.phase ≠ .joining e) : s.Steady O :=
  ⟨h, fun e he => absurd he (hp e)⟩

theorem Steady.of_looping (h : s.Holds O) (hp : s.phase = .looping) : s.Steady O :=
  .of_not_joining h fun e he => by cases hp.symm.trans he

variable {s' : Session}

/-- A change nothing sees. -/
theorem Steady.of_view_eq (h : s.Steady O) (hv : s'.view = s.view) (hp : s'.phase = s.phase) :
    s'.Steady O :=
  ⟨fun p => hv ▸ h.holds p, fun e he p => hv ▸ h.joining e (hp.symm.trans he) p⟩

/-- A gate re-armed, with evidence that may have grown: the views differ in the
gate and in what the evidence settles. -/
theorem regated {g : ResumeSeekGate} {f : ResumeFrontier} (hO : View.Closed O F) (phase : Phase)
    (notices : RebalanceEvents) {q : Partition}
    (hf : ∀ r, s.frontier.partitions.lookup q = some r → f.partitions.lookup q = some r)
    (hre : g.recreationFloor = s.gate.recreationFloor)
    (h : O { s.view q with gate := g.state q, touched := notices.Touches q }) :
    O ({ s with phase := phase, notices := notices, frontier := f, gate := g }.view q) := by
  have hev : (s.view q).evidence ≠ none → f.partitions.lookup q ≠ none := by
    intro he
    obtain ⟨r, hr⟩ := Option.ne_none_iff_exists'.1 he
    rw [hf r hr]
    nofun
  have hset : ∀ r, s.Settled q r → { s with frontier := f }.Settled q r := by
    rintro r (hr | hr | ⟨resume, hl, hc⟩)
    · exact .inl hr
    · exact .inr (.inl hr)
    · exact .inr (.inr ⟨resume, hf resume hl, hc⟩)
  have hok := hO.settle h hev hset
  simp only [view, hre]
  exact hok

/-- The drain re-arms every touched partition that is tracked, at its floor. -/
theorem drain_holds (hO : View.Closed O F) (h : s.Holds O) : s.drainRebalanceAndRearm.Holds O := by
  unfold drainRebalanceAndRearm
  split_ifs with he
  · exact h
  intro q
  obtain ⟨hst, hre⟩ := rearmGateAfterRebalance_spec (s.frontier.synthesizeRecreated s.notices.assigned).partitions
    (safeResumeFrontier s.contiguous s.buffer) s.notices s.gate
  have hfloor := lookup_safeResumeFrontier s q
  refine regated hO s.phase .empty (fun r => ResumeFrontier.lookup_synthesizeRecreated _) hre (hO.drain (h q) ?_)
  rw [hst q]
  cases hl : (safeResumeFrontier s.contiguous s.buffer).lookup q with
  | none =>
    have hnext : (s.view q).next = none := by
      rw [hl] at hfloor
      unfold View.safeFloor at hfloor
      split at hfloor
      · exact hfloor.symm
      · cases hfloor
    right
    unfold rearmedState
    rw [hl]
    dsimp only
    split_ifs with ha hf
    · exact .inl ⟨rfl, hnext⟩
    · exact .inr ⟨rfl, fun _ => hnext⟩
    · exact .inr ⟨rfl, fun _ => hnext⟩
  | some f =>
    split_ifs with ha
    · exact .inl ⟨f, hfloor.symm.trans hl, by rw [rearmedState, hl]⟩
    · right; right
      refine ⟨rfl, fun ht => absurd ?_ ha⟩
      refine ⟨by simpa using he, mem_affectedPartitions _ _ _ ht ?_⟩
      rw [hl]
      nofun

theorem drain_same (s : Session) :
    s.drainRebalanceAndRearm.broker = s.broker ∧ s.drainRebalanceAndRearm.phase = s.phase ∧
      ∀ p, ¬ s.drainRebalanceAndRearm.notices.Touches p := by
  unfold drainRebalanceAndRearm
  split_ifs with he
  · exact ⟨rfl, rfl, RebalanceEvents.not_touches_of_isEmpty he⟩
  · exact ⟨rfl, rfl, RebalanceEvents.not_touches_of_isEmpty rfl⟩

/-! ## Publishing -/

/-- The session after a roll that was published, and after one that was
dropped. -/
def published (s : Session) : Session :=
  { s with
    buffer := s.buffer.emptied
    history := { s.history with published := s.history.published ++ s.buffer.rows } }

def dropped (s : Session) : Session := { s with buffer := s.buffer.emptied }

/-- There are rows to publish, and the segment is not built or not sunk. -/
def publishFails (s : Session) (io : Io) : Bool := !s.buffer.isEmpty && !(io.ingested && io.sunk)

theorem publishRolled_cases (s : Session) (io : Io) :
    s.publishRolled io = (s, .ok none) ∨ s.publishRolled io = (s.published, .ok (some s.buffer.offsetSpans)) ∨
      s.publishRolled io = (s.dropped, .error ()) ∧ s.publishFails io = true := by
  unfold publishRolled publishFails
  rcases s.buffer.publishRolled_cases io.ingested io.sunk with h | h | ⟨h, hf⟩ <;> rw [h]
  · exact .inl rfl
  · exact .inr (.inl rfl)
  · exact .inr (.inr ⟨rfl, hf⟩)

theorem settled_published {p : Partition} {r : ℤ} (h : s.Settled p r ∨ ⟨p, r⟩ ∈ s.buffer.rows) :
    s.published.Settled p r := by
  rcases h with (h | h | h) | h
  · exact .inl (mem_append_left _ h)
  · exact .inr (.inl h)
  · exact .inr (.inr h)
  · exact .inl (mem_append_right _ h)

/-- Each partition's frontier after `record_durable`, and what is committed for
it, depend on that partition's frontier and span alone. -/
theorem foldl_recordSpan_spec (spans : List (Sigma fun _ : Partition => OffsetSpan)) (hs : spans.NodupKeys)
    (acc : ContiguousFrontier × HashMap Partition ℤ) (q : Partition) :
    let acc' := spans.foldl (fun acc e => ContiguousFrontier.recordSpan acc e.1 e.2) acc
    (acc'.1.next.lookup q =
      match List.dlookup q spans with
      | none => acc.1.next.lookup q
      | some sp =>
        some (if View.Bridges ((acc.1.next.lookup q).getD sp.start) sp then sp.next
          else (acc.1.next.lookup q).getD sp.start)) ∧
    (acc'.2.lookup q =
      match List.dlookup q spans with
      | none => acc.2.lookup q
      | some sp => if View.Bridges ((acc.1.next.lookup q).getD sp.start) sp then some sp.next else acc.2.lookup q) := by
  induction spans generalizing acc with
  | nil => exact ⟨rfl, rfl⟩
  | cons e spans ih =>
    obtain ⟨p, span⟩ := e
    obtain ⟨hp, hs⟩ := nodupKeys_cons.1 hs
    obtain ⟨h1, h2⟩ := ih hs (ContiguousFrontier.recordSpan acc p span)
    rw [foldl_cons]
    dsimp only at h1 h2 ⊢
    rw [h1, h2]
    by_cases hq : q = p
    · subst hq
      rw [dlookup_eq_none.2 hp, dlookup_cons_eq]
      dsimp only
      by_cases hb : View.Bridges ((acc.1.next.lookup q).getD span.start) span
      · have hrec : ContiguousFrontier.recordSpan acc q span =
            (⟨acc.1.next.insert q span.next⟩, acc.2.insert q span.next) := if_pos hb
        rw [hrec, if_pos hb, if_pos hb]
        exact ⟨AList.lookup_insert _, AList.lookup_insert _⟩
      · have hrec : ContiguousFrontier.recordSpan acc q span =
            (⟨acc.1.next.insert q ((acc.1.next.lookup q).getD span.start)⟩, acc.2) := if_neg hb
        rw [hrec, if_neg hb, if_neg hb]
        exact ⟨AList.lookup_insert _, rfl⟩
    · rw [dlookup_cons_ne _ _ hq]
      have hn : (ContiguousFrontier.recordSpan acc p span).1.next.lookup q = acc.1.next.lookup q := by
        unfold ContiguousFrontier.recordSpan
        dsimp only
        split_ifs <;> exact AList.lookup_insert_ne hq
      have hc : (ContiguousFrontier.recordSpan acc p span).2.lookup q = acc.2.lookup q := by
        unfold ContiguousFrontier.recordSpan
        dsimp only
        split_ifs
        · exact AList.lookup_insert_ne hq
        · rfl
      rw [hn, hc]
      exact ⟨rfl, rfl⟩

theorem phase_commitOffsets (s : Session) (offsets : HashMap Partition ℤ) : (s.commitOffsets offsets).phase = s.phase := by
  unfold commitOffsets
  split_ifs <;> rfl

theorem phase_commitContiguous (s : Session) (spans : PartitionOffsets) : (s.commitContiguous spans).phase = s.phase := by
  unfold commitContiguous
  split_ifs
  · exact phase_commitOffsets _ _
  · rfl

/-- Committing what a published segment covered. -/
theorem commitContiguous_holds (hO : View.Closed O F) (h : s.Holds O) :
    (s.published.commitContiguous s.buffer.offsetSpans).Holds O := by
  unfold commitContiguous
  split_ifs with hcom
  · intro q
    have hok := @hO.commit (s.view q) (s.published.Settled q) (fun r => ⟨q, r⟩ ∈ s.published.buffer.rows) (h q)
      fun r hr => settled_published hr
    obtain ⟨hn, hc⟩ := foldl_recordSpan_spec s.buffer.offsetSpans.entries s.buffer.offsetSpans.nodupKeys
      (s.published.contiguous, ∅) q
    rw [show List.dlookup q s.buffer.offsetSpans.entries = s.buffer.offsetSpans.lookup q from rfl] at hn hc
    have hnext : (s.published.contiguous.recordDurable s.buffer.offsetSpans).1.next.lookup q = (s.view q).advanced := by
      refine hn.trans ?_
      dsimp only [view]
      cases s.buffer.offsetSpans.lookup q <;> rfl
    have hcommit : ∀ c, (s.published.contiguous.recordDurable s.buffer.offsetSpans).2.lookup q = some c ↔
        (s.view q).Commits c := by
      intro c
      rw [show (s.published.contiguous.recordDurable s.buffer.offsetSpans).2.lookup q = _ from hc]
      unfold View.Commits
      dsimp only [view, published]
      cases s.buffer.offsetSpans.lookup q with
      | none => simp
      | some sp =>
        by_cases hb : View.Bridges ((s.contiguous.next.lookup q).getD sp.start) sp
        · simp [hb, eq_comm]
        · simp [hb]
    rw [view_commitOffsets]
    simp only [hcommit, view, hnext]
    exact hok
  · exact fun q => hO.publish (h q) fun r hr => settled_published hr

/-! ## The pass an input ends with -/

/-- The session a failed publish leaves to the activation pass. -/
def reseekPass (s : Session) (io : Io) : Option Session :=
  match s.publishRolled io with
  | (s', .error _) =>
    let (gate, targets) := armPublishFailureReseek s'.gate s'.contiguous
    if targets.isEmpty then none else some { s' with gate := gate }
  | _ => none

/-- The session a delivered record leaves to the flush, when it fills the
buffer. -/
def receivedFlush (s : Session) (io : Io) (p : Partition) (offset : ℤ) (payload : Option Payload) : Option Session :=
  let s := s.drainRebalanceAndRearm
  match s.gate.recordDelivered p with
  | (_, false) => none
  | (_, true) =>
    match ((s.moveTo p (offset + 1)).recordConsumed p offset).pushRecord p offset payload with
    | (_, false) => none
    | (s', true) => if io.drifted then none else some s'

/-- The session an input flushes mid-stream. -/
def flushOf (s : Session) : Input → Option (Io × Session)
  | .deliver p payload io =>
    match s.phase, s.nextRecord p with
    | .looping, some offset => (s.receivedFlush io p offset payload).map (io, ·)
    | _, _ => none
  | .flush io =>
    match s.phase with
    | .looping => if !s.buffer.isEmpty && io.drifted then none else some (io, s)
    | _ => none
  | _ => none

def joinedPass (s : Session) (earliest : HashMap Partition ℤ) (assignmentSeen : Bool) : Option Session :=
  let gate := earliest.entries.foldl (fun g e => (g.setTarget e.1 e.2).taint e.1) s.gate
  let frontier := s.frontier.synthesizeRecreated s.notices.assigned
  if assignmentSeen then
    some
      { s with
        phase := .looping
        notices := .empty
        frontier := frontier
        gate := rearmGateAfterRebalance gate frontier.partitions ∅ s.notices }
  else none

/-- The session from which an input's activation pass starts. The pass is the
last thing the input does. -/
def passOf (s : Session) (i : Input) : Option (Io × Session) :=
  match i with
  | .joined io assignmentSeen =>
    match s.phase with
    | .joining earliest => (s.joinedPass earliest assignmentSeen).map (io, ·)
    | _ => none
  | .retry io =>
    match s.phase with
    | .looping => some (io, s.drainRebalanceAndRearm)
    | _ => none
  | _ => (s.flushOf i).bind fun e => (e.2.reseekPass e.1).map (e.1, ·)

/-- The last target written for a partition is the one that stands. -/
theorem foldl_setTarget_spec (ts : List (Partition × ℤ)) (g : ResumeSeekGate) :
    (∀ q, (∃ t, (q, t) ∈ ts ∧
        (ts.foldl (fun g (t : Partition × ℤ) => (g.setTarget t.1 t.2).taint t.1) g).state q = .needsSeek t) ∨
      (∀ t, (q, t) ∉ ts) ∧
        (ts.foldl (fun g (t : Partition × ℤ) => (g.setTarget t.1 t.2).taint t.1) g).state q = g.state q) ∧
      (ts.foldl (fun g (t : Partition × ℤ) => (g.setTarget t.1 t.2).taint t.1) g).recreationFloor = g.recreationFloor := by
  induction ts generalizing g with
  | nil => exact ⟨fun q => .inr ⟨fun t => not_mem_nil, rfl⟩, rfl⟩
  | cons e ts ih =>
    obtain ⟨p, t⟩ := e
    obtain ⟨hst, hre⟩ := ih ((g.setTarget p t).taint p)
    refine ⟨fun q => ?_, hre⟩
    have hone : ((g.setTarget p t).taint p).state q = if q = p then .needsSeek t else g.state q := g.state_setTarget p q t
    rcases hst q with ⟨t', ht', hs⟩ | ⟨hnot, hs⟩
    · exact .inl ⟨t', mem_cons_of_mem _ ht', hs⟩
    · rw [hone] at hs
      by_cases hq : q = p
      · rw [if_pos hq] at hs
        exact .inl ⟨t, hq ▸ mem_cons_self, hs⟩
      · rw [if_neg hq] at hs
        refine .inr ⟨fun t' hmem => ?_, hs⟩
        rcases mem_cons.1 hmem with he | hmem
        · exact hq (Prod.mk.inj he).1
        · exact hnot t' hmem

/-- After a failed publish every active tracked partition is sent back. -/
theorem armPublishFailureReseek_spec (s : Session) (q : Partition) :
    (armPublishFailureReseek s.gate s.contiguous).1.state q = (s.view q).sentBack ∧
      (armPublishFailureReseek s.gate s.contiguous).1.recreationFloor = s.gate.recreationFloor := by
  have hmem : ∀ t, (q, t) ∈ (s.contiguous.next.entries.filter fun e => s.gate.state e.1 = .active).map
      (fun e => (e.1, e.2)) ↔ s.contiguous.next.lookup q = some t ∧ s.gate.state q = .active := by
    intro t
    rw [← Option.mem_def, AList.mem_lookup_iff, mem_map]
    constructor
    · rintro ⟨⟨q', t'⟩, he, h⟩
      cases h
      exact (mem_filter.1 he).imp_right of_decide_eq_true
    · exact fun he => ⟨⟨q, t⟩, mem_filter.2 ⟨he.1, decide_eq_true he.2⟩, rfl⟩
  obtain ⟨hst, hre⟩ := foldl_setTarget_spec
    ((s.contiguous.next.entries.filter fun e => s.gate.state e.1 = .active).map fun e => (e.1, e.2)) s.gate
  refine ⟨?_, hre⟩
  rcases hst q with ⟨t, ht, hs⟩ | ⟨hnot, hs⟩
  · obtain ⟨hl, ha⟩ := (hmem t).1 ht
    refine hs.trans ?_
    unfold View.sentBack
    dsimp only [view]
    rw [hl, ha]
  · refine hs.trans ?_
    unfold View.sentBack
    split
    · rename_i d ha hl
      exact absurd ((hmem d).2 ⟨hl, ha⟩) (hnot d)
    · rfl

/-- An arm ends with its pass, which starts with everything in order and nothing
buffered, or without one and everything in order. -/
inductive Ends (O : View → Prop) (s : Session) (io : Io) : Option Session → Session → Prop
  | pass {s' : Session} (holds : s'.Holds O) (phase : s'.phase = s.phase) (unbuffered : ∀ p, (s'.view p).span = none) :
    Ends O s io (some s') (s'.tryActivatePending io)
  | done {s' : Session} (holds : s'.Holds O) (phase : s'.phase = s.phase ∨ s'.phase = .stopped) : Ends O s io none s'

theorem flush_ends (io : Io) (hO : View.Closed O F) (h : s.Holds O)
    (hF : s.publishFails io = true → s.Holds F) :
    Ends O s io (s.reseekPass io) (s.flushAndCommitMidStream io) := by
  unfold reseekPass flushAndCommitMidStream
  rcases publishRolled_cases s io with hp | hp | ⟨hp, hf⟩ <;> rw [hp] <;> dsimp only
  · exact .done h (.inl rfl)
  · exact .done (commitContiguous_holds hO h) (.inl (phase_commitContiguous _ _))
  · have hback : ({ s.dropped with gate := (armPublishFailureReseek s.dropped.gate s.dropped.contiguous).1 } : Session).Holds O := by
      intro q
      obtain ⟨hst, hre⟩ := armPublishFailureReseek_spec s.dropped q
      have hok := @hO.fail (s.view q) (fun r => ⟨q, r⟩ ∈ s.dropped.buffer.rows) (h q) (hF hf q)
      rw [show (s.view q).sentBack = (s.dropped.view q).sentBack from rfl, ← hst] at hok
      simp only [view, hre]
      exact hok
    have hspan : ∀ q, (s.dropped.view q).span = none := fun _ => rfl
    have hph : s.dropped.phase = s.phase := rfl
    unfold reseekActiveAfterPublishFailure
    generalize s.dropped = s' at hback hspan hph ⊢
    dsimp only
    by_cases ht : (armPublishFailureReseek s'.gate s'.contiguous).2.isEmpty = true
    · rw [if_pos ht, if_pos ht]
      -- With no target the gate is the old one.
      have hgate : (armPublishFailureReseek s'.gate s'.contiguous).1 = s'.gate := by
        have hnil := List.isEmpty_iff.1 ht
        unfold armPublishFailureReseek at hnil ⊢
        dsimp only at hnil ⊢
        rw [hnil]
        rfl
      rw [hgate] at hback
      exact .done hback (.inl hph)
    · rw [if_neg ht, if_neg ht]
      exact .pass hback hph hspan

/-! ## Consuming -/

theorem offsetSpans_recordOffset (b : StreamingBuffer) (p : Partition) (o : ℤ) :
    (b.recordOffset p o).offsetSpans = b.offsetSpans.insert p (View.extended (b.offsetSpans.lookup p) o) ∧
      (b.recordOffset p o).rows = b.rows := by
  unfold StreamingBuffer.recordOffset View.extended
  cases b.offsetSpans.lookup p with
  | none => exact ⟨rfl, rfl⟩
  | some span =>
    dsimp only
    split_ifs <;> exact ⟨rfl, rfl⟩

theorem lookup_noteConsumed (c : ContiguousFrontier) (p q : Partition) (o : ℤ) :
    (c.noteConsumed p o).next.lookup q = if q = p then some ((c.next.lookup p).getD o) else c.next.lookup q := by
  unfold ContiguousFrontier.noteConsumed
  cases hp : c.next.lookup p with
  | some d =>
    split_ifs with hq
    · rw [hq, hp, Option.getD_some]
    · rfl
  | none =>
    split_ifs with hq
    · rw [hq, AList.lookup_insert, Option.getD_none]
    · rw [AList.lookup_insert_ne hq]

theorem at_recordConsumed (s : Session) (p : Partition) (o : ℤ) :
    At s (s.recordConsumed p o) p
      { s.view p with
        span := some (View.extended (s.view p).span o), next := some ((s.view p).next.getD o),
        first := some ((s.view p).first.getD o) } := by
  have hfirst : ∀ q, (if p ∈ s.history.first then s.history.first else s.history.first.insert p o).lookup q =
      if q = p then some ((s.history.first.lookup p).getD o) else s.history.first.lookup q := by
    intro q
    by_cases hp : p ∈ s.history.first
    · obtain ⟨f, hf⟩ := Option.isSome_iff_exists.1 (AList.lookup_isSome.2 hp)
      split_ifs with hq
      · rw [hq, hf, Option.getD_some]
      · rfl
    · rw [if_neg hp]
      split_ifs with hq
      · rw [hq, AList.lookup_insert, AList.lookup_eq_none.2 hp, Option.getD_none]
      · rw [AList.lookup_insert_ne hq]
  obtain ⟨hspans, hrows⟩ := offsetSpans_recordOffset s.buffer p o
  refine ⟨?_, rfl⟩
  funext q
  by_cases hq : q = p
  · subst hq
    rw [Function.update_self]
    simp only [view, recordConsumed, hspans, hrows, hfirst, lookup_noteConsumed, AList.lookup_insert, if_true]
    rfl
  · rw [Function.update_of_ne hq]
    simp only [view, recordConsumed, hspans, hrows, hfirst, lookup_noteConsumed, AList.lookup_insert_ne hq, if_neg hq]
    rfl

theorem at_deadLetter (s : Session) (p : Partition) (o : ℤ) :
    At s (s.deadLetter p o) p { s.view p with settled := (s.deadLetter p o).Settled p } := by
  refine ⟨?_, rfl⟩
  funext q
  by_cases hq : q = p
  · subst hq
    rw [Function.update_self]
    rfl
  · rw [Function.update_of_ne hq]
    have hset : (s.deadLetter p o).Settled q = s.Settled q := by
      funext r
      simp only [Settled, deadLetter, mem_append, mem_singleton, Row.mk.injEq, hq, false_and, or_false]
    simp only [view, hset]
    rfl

/-- A record that was pushed is held, or settled as a dead letter. -/
theorem pushRecord_ok (s : Session) (p : Partition) (o : ℤ) (payload : Option Payload) :
    ∃ settled held : ℤ → Prop,
      At s (s.pushRecord p o payload).1 p { s.view p with settled := settled, held := held } ∧
        (∀ r, (s.view p).settled r → settled r) ∧ (∀ r, (s.view p).held r → held r) ∧ (settled o ∨ held o) := by
  have hdead : ∃ settled held : ℤ → Prop,
      At s (s.deadLetter p o) p { s.view p with settled := settled, held := held } ∧
        (∀ r, (s.view p).settled r → settled r) ∧ (∀ r, (s.view p).held r → held r) ∧ (settled o ∨ held o) := by
    refine ⟨_, (s.view p).held, at_deadLetter s p o, ?_, fun _ => id, .inl ?_⟩
    · rintro r (hr | hr | hr)
      · exact .inl hr
      · exact .inr (.inl (mem_append_left _ hr))
      · exact .inr (.inr hr)
    · exact .inr (.inl (mem_append_right _ mem_cons_self))
  unfold pushRecord StreamingBuffer.pushPayload
  cases payload with
  | none => exact hdead
  | some payload =>
    dsimp only
    split
    · rename_i b full hb
      split at hb
      · cases hb
      · cases hb
      · rename_i n hn
        cases hb
        refine ⟨(s.view p).settled, fun r => ⟨p, r⟩ ∈ s.buffer.rows ++ List.replicate (n + 1) ⟨p, o⟩, ⟨?_, rfl⟩,
          fun _ => id, fun r hr => mem_append_left _ hr,
          .inr (mem_append_right _ (mem_replicate.2 ⟨n.succ_ne_zero, rfl⟩))⟩
        funext q
        by_cases hq : q = p
        · subst hq
          rw [Function.update_self]
          rfl
        · rw [Function.update_of_ne hq]
          have hheld : (fun r => (⟨q, r⟩ : Row) ∈ s.buffer.rows ++ List.replicate (n + 1) ⟨p, o⟩) =
              fun r => ⟨q, r⟩ ∈ s.buffer.rows := by
            funext r
            simp [hq]
          simp only [view, hheld]
          rfl
    · exact hdead

/-- The `recv` arm. -/
theorem received_ends (io : Io) {p : Partition} {o : ℤ} (payload : Option Payload) (hO : View.Closed O F)
    (h : s.Holds O) (hn : s.nextRecord p = some o)
    (hF : ∀ s', s.receivedFlush io p o payload = some s' → s'.publishFails io = true → s'.Holds F) :
    Ends O s io ((s.receivedFlush io p o payload).bind (·.reseekPass io)) (s.received io p o payload) := by
  obtain ⟨hbro, hph, hnt⟩ := drain_same s
  have hd := drain_holds hO h
  unfold nextRecord at hn
  rw [← hbro] at hn
  obtain ⟨x, hx, hnext⟩ := Option.bind_eq_some_iff.1 hn
  unfold receivedFlush at hF ⊢
  unfold received
  dsimp only at hF ⊢
  generalize s.drainRebalanceAndRearm = s' at hd hnt hx hnext hph hF ⊢
  have hlt := ((s'.broker.logs p).inRange o (View.nextFrom_spec hnext).1).2
  cases hv : s'.gate.recordDelivered p with
  | mk gate verdict =>
    rw [hv] at hF
    cases verdict with
    | false =>
      -- A dropped record moves the fetch position of a gated partition.
      have hst : ∀ q, gate.state q = s'.gate.state q := fun q => by
        have := s'.gate.state_recordDelivered p q
        rwa [hv] at this
      have hre : gate.recreationFloor = s'.gate.recreationFloor := by
        have := s'.gate.recreationFloor_recordDelivered p
        rwa [hv] at this
      have hgated : s'.gate.state p ≠ .active := by
        intro ha
        rw [ResumeSeekGate.recordDelivered, ha] at hv
        cases hv
      have hat := at_moveTo { s' with gate := gate } p (o + 1)
      have hsame : { s' with gate := gate }.view = s'.view := by
        funext q
        simp only [view, hst, hre]
        rfl
      have hi : ({ s' with gate := gate } : Session).Holds O := fun q => hsame ▸ hd q
      refine .done (hat.holds hi ?_) (.inl hph)
      refine hO.reposition (hi p) (fun y hy => ?_) id fun _ ha => absurd ((hst p).symm.trans ha) hgated
      cases hy
      exact hlt
    | true =>
      have hact : s'.gate.state p = .active := (ResumeSeekGate.recordDelivered_eq_true (by rw [hv])).1
      have hmove := at_moveTo s' p (o + 1)
      have hrec := at_recordConsumed (s'.moveTo p (o + 1)) p o
      rw [hmove.at_self] at hrec
      obtain ⟨settled, held, hpush, hs, hh, ho⟩ := pushRecord_ok ((s'.moveTo p (o + 1)).recordConsumed p o) p o payload
      rw [hrec.at_self] at hpush hs hh
      have hat := (hmove.trans hrec).trans hpush
      have hi := hat.holds hd (hO.consume (hd p) hact (hnt p) hx hnext hs hh ho)
      have hph' := hat.phase.trans hph
      generalize ((s'.moveTo p (o + 1)).recordConsumed p o).pushRecord p o payload = pushed at hi hph' hF ⊢
      obtain ⟨s'', full⟩ := pushed
      cases full with
      | false => exact .done hi (.inl hph')
      | true =>
        cases hd : io.drifted with
        | true => exact .done hi (.inr rfl)
        | false =>
          rw [hd] at hF
          have hf := flush_ends io hO hi (hF s'' rfl)
          simp only [Bool.false_eq_true, if_false, Option.bind_some]
          generalize s''.reseekPass io = pass, s''.flushAndCommitMidStream io = arm at hf
          cases hf with
          | pass holds phase unbuffered => exact .pass holds (phase.trans hph') unbuffered
          | done holds phase => exact .done holds (phase.imp_left (·.trans hph'))

/-! ## The join drive -/

theorem foldl_setTarget_recreationFloor (es : List (Sigma fun _ : Partition => ℤ)) (g : ResumeSeekGate) :
    (es.foldl (fun g e => (g.setTarget e.1 e.2).taint e.1) g).recreationFloor = g.recreationFloor := by
  induction es generalizing g with
  | nil => rfl
  | cons e es ih => exact ih _

/-- The end of the join drive: the first pass, or none. -/
theorem joined_ends (io : Io) {earliest : HashMap Partition ℤ} (seen : Bool) (hO : View.Closed O F)
    (h : s.Steady O) (hp : s.phase = .joining earliest) :
    Ends O { s with phase := .looping } io (s.joinedPass earliest seen) (s.joined io earliest seen) := by
  have hfresh := h.joining earliest hp
  have hre := foldl_setTarget_recreationFloor earliest.entries s.gate
  unfold joined joinedPass
  dsimp only
  generalize earliest.entries.foldl (fun g e => (g.setTarget e.1 e.2).taint e.1) s.gate = gate at hre ⊢
  have hre' := (rearmGateAfterRebalance_spec (s.frontier.synthesizeRecreated s.notices.assigned).partitions ∅
    s.notices gate).2
  generalize rearmGateAfterRebalance gate (s.frontier.synthesizeRecreated s.notices.assigned).partitions ∅ s.notices =
    gate' at hre' ⊢
  have hinv : Session.Holds O
      { s with
        phase := .looping, notices := .empty, frontier := s.frontier.synthesizeRecreated s.notices.assigned
        gate := gate' } := fun q =>
    regated hO .looping .empty (fun r => ResumeFrontier.lookup_synthesizeRecreated _) (hre'.trans hre)
      (hO.fresh (h.holds q) (hfresh q).1 (hfresh q).2)
  cases seen with
  | true =>
    refine .pass hinv rfl fun q => ?_
    -- Nothing is tracked yet, so nothing is buffered.
    by_contra hne
    obtain ⟨sp, hsp⟩ := Option.ne_none_iff_exists'.1 hne
    exact hO.tracked (h.holds q) sp hsp (hfresh q).1
  | false => exact .done hinv (.inl rfl)

theorem discarded_steady {earliest : HashMap Partition ℤ} {p : Partition} {o : ℤ} (hO : View.Closed O F)
    (h : s.Steady O) (hp : s.phase = .joining earliest) (hn : s.nextRecord p = some o) :
    (s.discarded earliest p o).Steady O := by
  have hfresh := h.joining earliest hp
  obtain ⟨x, -, hnext⟩ := Option.bind_eq_some_iff.1 hn
  have hlt := ((s.broker.logs p).inRange o (View.nextFrom_spec hnext).1).2
  have hat := at_moveTo s p (o + 1)
  have hmoved : (s.moveTo p (o + 1)).Holds O := by
    refine hat.holds h.holds (hO.reposition (h.holds p) (fun y hy => ?_) id fun hne => absurd (hfresh p).1 hne)
    cases hy
    exact hlt
  have hfresh' : ∀ q, ((s.moveTo p (o + 1)).view q).next = none ∧ ((s.moveTo p (o + 1)).view q).armed = false := hfresh
  unfold discarded
  dsimp only
  generalize s.moveTo p (o + 1) = s' at hmoved hfresh' ⊢
  split_ifs with hf hr
  · have hre := s'.gate.recreationFloor_recordDelivered p
    refine ⟨fun q => ?_, fun _ _ q => ⟨(hfresh' q).1, ?_⟩⟩
    · exact regated hO s'.phase s'.notices (fun _ => id) hre (hO.fresh (hmoved q) (hfresh' q).1 (hfresh' q).2)
    · simp only [view, hre]
      exact (hfresh' q).2
  · have hre := (s'.gate.requireTarget p).recreationFloor_recordDelivered p
    refine ⟨fun q => ?_, fun _ _ q => ⟨(hfresh' q).1, ?_⟩⟩
    · exact regated hO s'.phase s'.notices (fun r => ResumeFrontier.lookup_synthesizeRecreated _) hre
        (hO.fresh (hmoved q) (hfresh' q).1 (hfresh' q).2)
    · simp only [view, hre]
      exact (hfresh' q).2
  · exact ⟨hmoved, fun _ _ => hfresh'⟩

/-! ## Kafka's own moves -/

theorem at_setLog (s : Session) (p : Partition) (log : PartitionLog) :
    At s (s.setLog p log) p { s.view p with log := log } := by
  refine ⟨?_, rfl⟩
  funext q
  by_cases hq : q = p
  · subst hq
    simp only [view, setLog, Function.update_self]
    rfl
  · rw [Function.update_of_ne hq]
    simp only [view, setLog, Function.update_of_ne hq]
    rfl

theorem At.steady {p : Partition} {v : View} (h : At s s' p v) (hs : s.Steady O) (hv : O v)
    (hn : v.next = (s.view p).next) (ha : v.armed = (s.view p).armed) : s'.Steady O := by
  refine ⟨h.holds hs.holds hv, fun e he q => ?_⟩
  have hj := hs.joining e (h.phase.symm.trans he) q
  rw [h.view]
  by_cases hq : q = p
  · subst hq
    rw [Function.update_self, hn, ha]
    exact hj
  · rw [Function.update_of_ne hq]
    exact hj

/-- Partitions given, moved or taken away, with a notice of it. -/
theorem Steady.reposition (hO : View.Closed O F) (h : s.Steady O) {positions : HashMap Partition ℤ}
    {notices : RebalanceEvents} (hp : ∀ q x, positions.lookup q = some x → x ≤ (s.broker.logs q).high)
    (ht : ∀ q, s.notices.Touches q → notices.Touches q)
    (hm : ∀ q, notices.Touches q ∨ ∀ x, positions.lookup q = some x → s.broker.positions.lookup q = some x) :
    { s with broker := { s.broker with positions := positions }, notices := notices }.Steady O where
  holds := fun q => hO.reposition (h.holds q) (hp q) (ht q) fun _ _ => hm q
  joining := h.joining

variable (b : Broker)

theorem startPosition_le (earliest : Bool) (p : Partition) :
    b.startPosition earliest p ≤ (b.logs p).high := by
  have := (b.logs p).low_le
  unfold Broker.startPosition
  cases b.committed.lookup p with
  | none =>
    dsimp only
    split_ifs <;> omega
  | some c =>
    dsimp only
    split_ifs <;> omega

theorem lookup_assign (earliest : Bool) (ps : List Partition) (q : Partition) {x : ℤ}
    (h : (b.assign earliest ps).positions.lookup q = some x) :
    (q ∈ ps ∧ x = b.startPosition earliest q) ∨ b.positions.lookup q = some x := by
  unfold Broker.assign at h
  generalize b.positions = m at h ⊢
  induction ps generalizing m with
  | nil => exact .inr h
  | cons p ps ih =>
    rcases ih _ h with ⟨hq, hx⟩ | hq
    · exact .inl ⟨mem_cons_of_mem _ hq, hx⟩
    · by_cases hqp : q = p
      · subst hqp
        rw [AList.lookup_insert] at hq
        exact .inl ⟨mem_cons_self, (Option.some.inj hq).symm⟩
      · rw [AList.lookup_insert_ne hqp] at hq
        exact .inr hq

variable (ps : List Partition)

theorem lookup_revoke (q : Partition) {x : ℤ}
    (h : (b.revoke ps).positions.lookup q = some x) : b.positions.lookup q = some x := by
  unfold Broker.revoke at h
  generalize b.positions = m at h ⊢
  induction ps generalizing m with
  | nil => exact h
  | cons p ps ih =>
    have hq := ih _ h
    by_cases hqp : q = p
    · subst hqp
      rw [AList.lookup_erase] at hq
      cases hq
    · rwa [AList.lookup_erase_ne hqp] at hq

/-! ## One step -/

/-- A step ends with its pass, or with everything in order. Only the pass of the
seek-retry arm may find anything buffered. -/
inductive Steps (O : View → Prop) (i : Input) : Option (Io × Session) → Session → Prop
  | pass {io : Io} {s' : Session} (holds : s'.Holds O) (looping : s'.phase = .looping)
    (unbuffered : (∀ io, i ≠ .retry io) → ∀ p, (s'.view p).span = none) : Steps O i (some (io, s')) (s'.tryActivatePending io)
  | rest {s' : Session} (steady : s'.Steady O) : Steps O i none s'

variable {i : Input}

theorem Ends.steps {io : Io} {pass : Option Session} (hl : s.phase = .looping)
    (h : Ends O s io pass s') : Steps O i (pass.map (io, ·)) s' := by
  cases h with
  | pass holds phase unbuffered => exact .pass holds (phase.trans hl) fun _ => unbuffered
  | done holds phase =>
    refine .rest (.of_not_joining holds fun e he => ?_)
    rcases phase with hp | hp
    · cases (hp.trans hl).symm.trans he
    · cases hp.symm.trans he

theorem deliver_steps (p : Partition) (payload : Option Payload) (io : Io) (hO : View.Closed O F)
    (h : s.Steady O)
    (hF : ∀ io' s', s.flushOf (.deliver p payload io) = some (io', s') → s'.publishFails io' = true → s'.Holds F) :
    Steps O (.deliver p payload io) (s.passOf (.deliver p payload io)) (s.deliver p payload io) := by
  dsimp only [deliver, passOf, flushOf] at hF ⊢
  cases hn : s.nextRecord p with
  | none => cases hp : s.phase <;> exact .rest h
  | some o =>
    cases hp : s.phase with
    | joining earliest => exact .rest (discarded_steady hO h hp hn)
    | looping =>
      rw [hn, hp] at hF
      dsimp only at hF ⊢
      have hends := received_ends io payload hO h.holds hn fun s' hs' => hF io s' (by rw [hs']; rfl)
      have hpass := hends.steps (i := .deliver p payload io) hp
      cases hr : s.receivedFlush io p o payload with
      | none => rwa [hr] at hpass
      | some s' => rwa [hr] at hpass
    | stopped => exact .rest h

theorem stop_not_joining : ∀ earliest, s.stop.phase ≠ .joining earliest := by
  intro earliest h
  cases h

/-- Everything but the final drain. -/
theorem step_steps (hO : View.Closed O F) (h : s.Steady O) (hi : ∀ io, i ≠ .shutdown io)
    (hF : ∀ io s', s.flushOf i = some (io, s') → s'.publishFails io = true → s'.Holds F) :
    Steps O i (s.passOf i) (s.step i) := by
  cases i with
  | produce p gap => exact .rest ((at_setLog s p _).steady h (hO.append (h.holds p) gap) rfl rfl)
  | expire p low =>
    refine .rest ?_
    simp only [step, expireLog]
    split_ifs
    · exact (at_setLog s p _).steady h (hO.expire (h.holds p) low) rfl rfl
    · exact h
  | settleCommit landed =>
    refine .rest (h.of_view_eq ?_ rfl)
    simp only [step, Broker.settleCommit]
    cases s.broker.inFlight <;> rfl
  | assign ps =>
    refine .rest (h.reposition hO (fun q x hx => ?_) (fun q hq => ?_) fun q => ?_)
    · rcases lookup_assign _ _ _ _ hx with ⟨-, rfl⟩ | hx
      · exact startPosition_le _ _ _
      · exact hO.position (h.holds q) x hx
    · exact hq.imp_right (Or.imp_right (mem_append_left ps))
    · by_cases hq : q ∈ ps
      · exact .inl (.inr (.inr (mem_append_right _ hq)))
      · exact .inr fun x hx => (lookup_assign _ _ _ _ hx).resolve_left fun hm => hq hm.1
  | revoke ps =>
    refine .rest (h.reposition hO (fun q x hx => hO.position (h.holds q) x (lookup_revoke _ _ _ hx)) (fun q hq => ?_) fun q => ?_)
    · exact hq.imp_right (Or.imp_left (mem_append_left ps))
    · exact .inr fun x hx => lookup_revoke _ _ _ hx
  | rebalanceError =>
    exact .rest (h.reposition hO (fun q x hx => by cases hx) (fun q _ => .inl rfl) fun q => .inl (.inl rfl))
  | deliver p payload io => exact deliver_steps p payload io hO h hF
  | joined io seen =>
    simp only [step, passOf]
    cases hp : s.phase with
    | joining earliest => exact (joined_ends io seen hO h hp).steps rfl
    | looping => exact .rest h
    | stopped => exact .rest h
  | flush io =>
    dsimp only [step, passOf, flushOf, whileLooping, flushTick] at hF ⊢
    cases hp : s.phase with
    | looping =>
      rw [hp] at hF
      by_cases hd : (!s.buffer.isEmpty && io.drifted) = true
      · rw [if_pos hd, if_pos hd]
        exact .rest (.of_not_joining h.holds stop_not_joining)
      · rw [if_neg hd] at hF
        rw [if_neg hd, if_neg hd]
        exact (flush_ends io hO h.holds (hF io s rfl)).steps hp
    | joining e => exact .rest h
    | stopped => exact .rest h
  | retry io =>
    simp only [step, passOf, whileLooping, retryTick]
    cases hp : s.phase with
    | looping =>
      exact .pass (drain_holds hO h.holds) ((drain_same s).2.1.trans hp) fun hr => absurd rfl (hr io)
    | joining e => exact .rest h
    | stopped => exact .rest h
  | shutdown io => exact absurd rfl (hi io)
  | drift =>
    simp only [step, passOf, whileLooping]
    cases hp : s.phase with
    | looping => exact .rest (.of_not_joining h.holds stop_not_joining)
    | joining e => exact .rest h
    | stopped => exact .rest h

/-! ## Views in order -/

/-- The invariant of a session: every view is in order, and the join drive
consumes nothing. -/
structure Sound (s : Session) : Prop where
  inv : s.Inv
  joining : ∀ e, s.phase = .joining e → ∀ p, (s.view p).next = none ∧ (s.view p).armed = false

/-- What a step asks of the broker: the activation pass of the seek-retry arm
lets no partition through above its span. -/
def StepOk (s : Session) : Input → Prop
  | .retry io =>
    match s.phase with
    | .looping =>
      Guarded (activate io) (RestoreOk io) s.drainRebalanceAndRearm (s.drainRebalanceAndRearm.pendingAssigned io)
    | _ => True
  | _ => True

theorem tryActivatePending_inv {io : Io} (h : s.Inv)
    (hg : Guarded (activate io) (RestoreOk io) s (s.pendingAssigned io)) :
    (s.tryActivatePending io).Inv ∧ (s.tryActivatePending io).phase = s.phase := by
  unfold tryActivatePending
  split_ifs
  · exact ⟨h, rfl⟩
  · exact pass_inv h hg

theorem shutdown_phase (s : Session) (io : Io) : (s.shutdown io).phase = .stopped := by
  unfold shutdown
  split_ifs
  · rfl
  · rcases publishRolled_cases s io with hp | hp | ⟨hp, -⟩ <;> rw [hp] <;> rfl

theorem shutdown_inv (io : Io) (h : s.Inv) : (s.shutdown io).Inv := by
  unfold shutdown
  split_ifs
  · exact h
  · rcases publishRolled_cases s io with hp | hp | ⟨hp, -⟩ <;> rw [hp]
    · exact h
    · exact commitContiguous_holds View.Ok.closed h
    · exact fun p => (h p).roll fun _ hr => hr

/-- The pass of a step whose broker answers as `StepOk` asks is in order. -/
theorem pass_guarded {io : Io} (h : StepOk s i) (hp : s.passOf i = some (io, s'))
    (hs : s'.Inv) (hu : (∀ io, i ≠ .retry io) → ∀ p, (s'.view p).span = none) :
    Guarded (activate io) (RestoreOk io) s' (s'.pendingAssigned io) := by
  by_cases hr : ∃ io', i = .retry io'
  · obtain ⟨io', rfl⟩ := hr
    simp only [passOf] at hp
    cases hph : s.phase with
    | looping =>
      rw [hph] at hp
      cases hp
      simpa only [StepOk, hph] using h
    | joining e => rw [hph] at hp; cases hp
    | stopped => rw [hph] at hp; cases hp
  · exact guarded_of_unbuffered hs (hu fun io' he => hr ⟨io', he⟩)

theorem step_sound (h : s.Sound) (hi : StepOk s i) : (s.step i).Sound := by
  by_cases hns : ∃ io, i = .shutdown io
  · obtain ⟨io, rfl⟩ := hns
    simp only [step, whileLooping]
    cases hp : s.phase with
    | looping => exact ⟨shutdown_inv io h.inv, fun e he => by cases (shutdown_phase s io).symm.trans he⟩
    | joining e => exact h
    | stopped => exact h
  · have hst := step_steps View.Ok.closed ⟨h.inv, h.joining⟩ (fun io he => hns ⟨io, he⟩) fun _ _ _ _ _ => trivial
    generalize hpass : s.passOf i = pass, s.step i = s'' at hst
    cases hst with
    | pass holds looping unbuffered =>
      obtain ⟨ha, hph⟩ := tryActivatePending_inv holds (pass_guarded hi hpass holds unbuffered)
      exact ⟨ha, fun e he => by cases (hph.trans looping).symm.trans he⟩
    | rest steady => exact ⟨steady.holds, steady.joining⟩

/-! ## The first state -/

theorem foldl_requireTarget_recreationFloor (g : ResumeSeekGate) :
    (ps.foldl ResumeSeekGate.requireTarget g).recreationFloor = g.recreationFloor := by
  induction ps generalizing g with
  | nil => rfl
  | cons p ps ih => exact ih _

/-- Before the first poll no seek is armed. -/
theorem start_armed (commitsOffsets useEarliestOffset : Bool) (maxRows : ℕ) (frontier : ResumeFrontier)
    (logs : Partition → PartitionLog) (committed : HashMap Partition ℤ) (p : Partition) :
    ((start commitsOffsets useEarliestOffset maxRows frontier logs committed).view p).armed = false := by
  simp only [view, start, foldl_requireTarget_recreationFloor]
  rfl

end Session

end FerroDruid.Kafka
