import FerroDruid.Kafka.View
/-!
# The activation pass

`try_activate_pending_blocking` touches one partition at a time: each of its
moves replaces the view of that partition and leaves the others alone. A pass
keeps every view in order as long as no partition with a buffered span is let
through above the place its span was kept for (`RestoreOk`).
-/

namespace FerroDruid.Kafka

open Lib

namespace Session

/-- The record is in a segment this session published, was delivered and
dead-lettered, or is in a durable segment that was reloaded at the start. -/
def Settled (s : Session) (p : Partition) (r : ℤ) : Prop :=
  ⟨p, r⟩ ∈ s.history.published ∨ ⟨p, r⟩ ∈ s.history.deadLettered ∨
    ∃ resume, s.frontier.partitions.lookup p = some resume ∧ resume.Covers r

def view (s : Session) (p : Partition) : View where
  log := s.broker.logs p
  next := s.contiguous.next.lookup p
  span := s.buffer.offsetSpans.lookup p
  gate := s.gate.state p
  armed := decide (p ∈ s.gate.recreationFloor)
  evidence := s.frontier.partitions.lookup p
  position := s.broker.positions.lookup p
  first := s.history.first.lookup p
  settled := s.Settled p
  held := fun r => ⟨p, r⟩ ∈ s.buffer.rows
  committed := fun c => (p, c) ∈ s.history.commits
  touched := s.notices.Touches p

/-- Every partition's view satisfies `O`. -/
def Holds (O : View → Prop) (s : Session) : Prop := ∀ p, O (s.view p)

/-- Every partition's view is in order. -/
def Inv (s : Session) : Prop := ∀ p, (s.view p).Ok

/-- `s'` differs from `s` at most in what `p` sees, which is now `v`. -/
structure At (s s' : Session) (p : Partition) (v : View) : Prop where
  view : s'.view = Function.update s.view p v
  phase : s'.phase = s.phase

namespace At

variable {s s' s'' : Session} {p : Partition} {v v' : View}

theorem refl (s : Session) (p : Partition) : At s s p (s.view p) := ⟨(Function.update_eq_self p s.view).symm, rfl⟩

/-- Nothing a partition sees has changed. -/
theorem of_view_eq (p : Partition) (hv : s'.view = s.view) (hp : s'.phase = s.phase) : At s s' p (s.view p) :=
  ⟨by rw [hv, Function.update_eq_self], hp⟩

theorem at_self (h : At s s' p v) : s'.view p = v := by rw [h.view, Function.update_self]

theorem trans (h : At s s' p v) (h' : At s' s'' p v') : At s s'' p v' :=
  ⟨by rw [h'.view, h.view, Function.update_idem], h'.phase.trans h.phase⟩

theorem holds {O : View → Prop} (h : At s s' p v) (hs : s.Holds O) (hv : O v) : s'.Holds O := by
  intro q
  rw [h.view]
  by_cases hq : q = p
  · subst hq
    rwa [Function.update_self]
  · rw [Function.update_of_ne hq]
    exact hs q

theorem inv (h : At s s' p v) (hs : s.Inv) (hv : v.Ok) : s'.Inv := h.holds hs hv

end At

/-! ## The moves of a pass -/

theorem at_pausePartition (s : Session) (io : Io) (p : Partition) : At s (s.pausePartition io p) p (s.view p) := by
  unfold pausePartition
  split_ifs
  · exact .of_view_eq p rfl rfl
  · exact .refl s p

theorem at_noteShrunk (s : Session) (p : Partition) (shrank : Bool) : At s (s.noteShrunk p shrank) p (s.view p) := by
  unfold noteShrunk
  split_ifs
  · exact .of_view_eq p rfl rfl
  · exact .refl s p

theorem noteShrunk_same (s : Session) (p : Partition) (shrank : Bool) :
    (s.noteShrunk p shrank).broker = s.broker ∧
      (∀ q, (s.noteShrunk p shrank).gate.state q = s.gate.state q) ∧
      (s.noteShrunk p shrank).gate.tainted = s.gate.tainted := by
  unfold noteShrunk
  split_ifs <;> exact ⟨rfl, fun _ => rfl, rfl⟩

/-- A gate that changed at `p` only. -/
theorem at_gate {s : Session} {g : ResumeSeekGate} {p : Partition} {st : SeekGateState} {armed : Bool}
    (hst : ∀ q, g.state q = if q = p then st else s.gate.state q)
    (ha : ∀ q, decide (q ∈ g.recreationFloor) = if q = p then armed else decide (q ∈ s.gate.recreationFloor)) :
    At s { s with gate := g } p { s.view p with gate := st, armed := armed } := by
  refine ⟨?_, rfl⟩
  funext q
  by_cases hq : q = p
  · subst hq
    rw [Function.update_self]
    have h1 := hst q
    have h2 := ha q
    simp only [view, h1, h2]
    rfl
  · rw [Function.update_of_ne hq]
    have h1 := hst q
    have h2 := ha q
    rw [if_neg hq] at h1 h2
    simp only [view, h1, h2]
    rfl

theorem at_setTarget (s : Session) (p : Partition) (t : ℤ) :
    At s { s with gate := s.gate.setTarget p t } p { s.view p with gate := .needsSeek t } := by
  refine at_gate (s.gate.state_setTarget p · t) fun q => ?_
  split_ifs with h
  · subst h
    rfl
  · rfl

theorem at_armResetFloor_setTarget (s : Session) (p : Partition) (t : ℤ) :
    At s { s with gate := (s.gate.armResetFloor p).setTarget p t } p { s.view p with gate := .needsSeek t } := by
  refine at_gate ((s.gate.armResetFloor p).state_setTarget p · t) fun q => ?_
  split_ifs with h
  · subst h
    rfl
  · rfl

theorem at_armRecreationFloor_setTarget (s : Session) (p : Partition) (t : ℤ) :
    At s { s with gate := (s.gate.armRecreationFloor p).setTarget p t } p
      { s.view p with gate := .needsSeek t, armed := true } := by
  refine at_gate ((s.gate.armRecreationFloor p).state_setTarget p · t) fun q => ?_
  simp only [ResumeSeekGate.setTarget, ResumeSeekGate.armRecreationFloor, Finset.mem_insert]
  split_ifs with h
  · simp [h]
  · simp [h]

theorem at_markActive (s : Session) {g : ResumeSeekGate} {p : Partition} (hp : p ∉ g.paused)
    (hst : ∀ q, g.state q = s.gate.state q) (ha : g.recreationFloor = s.gate.recreationFloor) :
    At s { s with gate := g.markActive p } p { s.view p with gate := .active, armed := false } := by
  refine at_gate (fun q => ?_) fun q => ?_
  · rw [ResumeSeekGate.state_markActive, hst q]
    simp [hp]
  · simp only [ResumeSeekGate.markActive, if_neg hp, Finset.mem_erase, ha]
    split_ifs with h
    · simp [h]
    · simp [h]

/-- Activation, or nothing when the resume failed. -/
theorem at_resumeAndActivate (s : Session) (io : Io) (p : Partition) :
    At s (s.resumeAndActivate io p) p (s.view p) ∨
      At s (s.resumeAndActivate io p) p { s.view p with gate := .active, armed := false } := by
  unfold resumeAndActivate
  split_ifs with hp hr
  · exact .inr (at_markActive s (by simp [ResumeSeekGate.noteUnpaused]) (fun _ => rfl) rfl)
  · exact .inl (.refl s p)
  · exact .inr (at_markActive s hp (fun _ => rfl) rfl)

theorem at_moveTo (s : Session) (p : Partition) (x : ℤ) :
    At s (s.moveTo p x) p { s.view p with position := some x } := by
  refine ⟨?_, rfl⟩
  funext q
  by_cases hq : q = p
  · subst hq
    rw [Function.update_self]
    simp only [view, moveTo, AList.lookup_insert]
    rfl
  · rw [Function.update_of_ne hq]
    simp only [view, moveTo, AList.lookup_insert_ne hq]
    rfl

theorem at_rebased (s : Session) (p : Partition) (t : ℤ) :
    At s (s.rebased p t) p { s.view p with next := some t, span := none, gate := .needsSeek t } := by
  have hbase : At s { s with contiguous := s.contiguous.resetBase p t, buffer := s.buffer.purgePartitionSpan p } p
      { s.view p with next := some t, span := none } := by
    refine ⟨?_, rfl⟩
    funext q
    by_cases hq : q = p
    · subst hq
      rw [Function.update_self]
      simp only [view, ContiguousFrontier.resetBase, StreamingBuffer.purgePartitionSpan, AList.lookup_insert,
        AList.lookup_erase]
      rfl
    · rw [Function.update_of_ne hq]
      simp only [view, ContiguousFrontier.resetBase, StreamingBuffer.purgePartitionSpan, AList.lookup_insert_ne hq,
        AList.lookup_erase_ne hq]
      rfl
  have hgate := at_setTarget
    { s with contiguous := s.contiguous.resetBase p t, buffer := s.buffer.purgePartitionSpan p } p t
  rw [hbase.at_self] at hgate
  exact hbase.trans hgate

theorem view_commitOffsets (s : Session) (offsets : HashMap Partition ℤ) (q : Partition) :
    (s.commitOffsets offsets).view q =
      { s.view q with committed := fun c => (s.view q).committed c ∨ offsets.lookup q = some c } := by
  have hmem : ∀ c, (q, c) ∈ offsets.entries.map (fun e => (e.1, e.2)) ↔ offsets.lookup q = some c := by
    intro c
    rw [← Option.mem_def, AList.mem_lookup_iff, List.mem_map]
    constructor
    · rintro ⟨⟨q', c'⟩, he, h⟩
      cases h
      exact he
    · exact fun he => ⟨⟨q, c⟩, he, rfl⟩
  have hc : (fun c => (q, c) ∈ (s.commitOffsets offsets).history.commits) =
      fun c => (s.view q).committed c ∨ offsets.lookup q = some c := by
    funext c
    rw [← hmem c]
    unfold commitOffsets
    split_ifs with he
    · rw [List.isEmpty_iff.1 he]
      simp [view]
    · exact propext List.mem_append
  rw [← hc]
  unfold commitOffsets
  split_ifs <;> rfl

theorem at_overwriteCommitted (s : Session) (p : Partition) (t : ℤ) :
    At s (s.overwriteCommitted p t) p
      { s.view p with
        armed := false, committed := fun c => (s.view p).committed c ∨ (s.view p).armed = true ∧ c = t } := by
  have hdis : At s { s with gate := s.gate.disarmRecreationFloor p } p { s.view p with armed := false } := by
    refine at_gate (fun q => ?_) fun q => ?_
    · split_ifs with h
      · subst h
        rfl
      · rfl
    · simp only [ResumeSeekGate.disarmRecreationFloor, Finset.mem_erase]
      split_ifs with h
      · simp [h]
      · simp [h]
  unfold overwriteCommitted
  split_ifs with ha
  · have harm : (s.view p).armed = true := decide_eq_true ha
    refine hdis.trans ⟨?_, rfl⟩
    funext q
    rw [view_commitOffsets]
    by_cases hq : q = p
    · subst hq
      rw [Function.update_self, hdis.at_self]
      simp only [AList.lookup_insert, Option.some.injEq, harm, true_and, eq_comm]
    · rw [Function.update_of_ne hq, AList.lookup_insert_ne hq]
      simp
  · have harm : (s.view p).armed = false := decide_eq_false ha
    simp only [harm, Bool.false_eq_true, false_and, or_false]
    exact hdis

/-! ## Landing, failing, resolving -/

section Passes

variable {O : View → Prop} {R : View → ℤ → Prop}

/-- What the pass may assume of the target it seeks to: it is inside the log,
and nothing is lost below it when the frontier is moved there or it is
committed. -/
theorem clampedSeekTarget_spec {s : Session} {p : Partition} {t : ℤ}
    (h : (s.view p).armed = true → (s.view p).evidence ≠ none) :
    (s.clampedSeekTarget p t).1 ≤ (s.broker.logs p).high ∧
      (s.resetFloorArmed p = true ∨ (s.clampedSeekTarget p t).1 ≠ t ∨ (s.view p).armed = true →
        (s.view p).Done (s.clampedSeekTarget p t).1) := by
  refine ⟨resolveSeekTarget_le (s.broker.logs p).low_le _ _ t, fun hc r hr _ hlt => ?_⟩
  have hlow := ((s.broker.logs p).inRange r hr).1
  unfold clampedSeekTarget at hc hlt
  cases hrec : s.recreation p with
  | some resume =>
    -- A recreation floor is advanced through reloaded coverage only.
    rw [hrec] at hlt
    unfold recreation at hrec
    split_ifs at hrec
    exact .inr (.inr ⟨resume, hrec, recreatedResumeTarget_covers hlow hlt⟩)
  | none =>
    have harm : (s.view p).armed = false := by
      by_contra ha
      rw [Bool.not_eq_false] at ha
      have hev := h ha
      unfold recreation at hrec
      rw [if_pos (of_decide_eq_true ha)] at hrec
      exact hev hrec
    rw [hrec] at hc hlt
    rcases resolveSeekTarget_none (s.resetFloorArmed p) t (s.broker.logs p).low (s.broker.logs p).high with he | he
    · omega
    · rcases hc with hc | hc | hc
      · rw [he.1] at hc
        cases hc
      · exact absurd he.2 hc
      · rw [harm] at hc
        cases hc

/-- The seek, the re-base it may need and the overwrite of a dead committed
offset, as one move of the view. -/
theorem at_landed (s : Session) (p : Partition) (t : ℤ) (rebase : Bool) :
    At s ((if rebase then (s.moveTo p t).rebased p t else s.moveTo p t).overwriteCommitted p t) p
      ((s.view p).landed t rebase) := by
  have hmove := at_moveTo s p t
  cases rebase with
  | true =>
    have hbase := at_rebased (s.moveTo p t) p t
    rw [hmove.at_self] at hbase
    have hover := at_overwriteCommitted ((s.moveTo p t).rebased p t) p t
    rw [hbase.at_self] at hover
    exact (hmove.trans hbase).trans hover
  | false =>
    have hover := at_overwriteCommitted (s.moveTo p t) p t
    rw [hmove.at_self] at hover
    exact hmove.trans hover

/-- What a pass makes of a partition: its view is in order, and if it was let
through, then where it may be. -/
structure Passed (O : View → Prop) (R : View → ℤ → Prop) (v v' : View) : Prop where
  holds : O v'
  unbuffered : v.span = none → v'.span = none
  reads : v'.gate = .active → v.gate ≠ .active → ∀ x, v'.position = some x → R v' x

theorem Passed.stay {v : View} (h : O v) : Passed O R v v := ⟨h, id, fun ha hn => absurd ha hn⟩

/-- A move that does not activate, before one that may. -/
theorem Passed.after {v v' v'' : View} (h : Passed O R v' v'') (hs : v.span = none → v'.span = none)
    (hg : v'.gate ≠ .active) : Passed O R v v'' :=
  ⟨h.holds, fun hn => h.unbuffered (hs hn), fun ha _ => h.reads ha hg⟩

variable (io : Io)

/-- A partition that leaves nothing behind may be activated, or stay as it is. -/
theorem resumeAndActivate_passed {s : Session} {p : Partition} (hP : View.Passes O R) (h : O (s.view p))
    (hp : ∀ x, (s.view p).position = some x → R (s.view p) x) :
    ∃ v, At s (s.resumeAndActivate io p) p v ∧ Passed O R (s.view p) v := by
  rcases at_resumeAndActivate s io p with ha | ha
  · exact ⟨_, ha, .stay h⟩
  · exact ⟨_, ha, hP.activate h hp, id, fun _ _ x hx => hP.regate _ _ (hp x hx)⟩

theorem seekLanded_passed {s : Session} {p : Partition} {t t' : ℤ} {resetFloor : Bool} (hP : View.Passes O R)
    (h : O (s.view p)) (hg : s.gate.state p = .needsSeek t) (ht : t' ≤ (s.broker.logs p).high)
    (hd : resetFloor = true ∨ t' ≠ t ∨ (s.view p).armed = true → (s.view p).Done t') :
    ∃ v, At s (s.seekLanded io p t' resetFloor) p v ∧ Passed O R (s.view p) v := by
  have helse : (s.moveTo p t').seeksElsewhere p t' = decide (t ≠ t') := by
    have hg' : (s.moveTo p t').gate.state p = .needsSeek t := hg
    unfold seeksElsewhere
    rw [hg']
  unfold seekLanded
  dsimp only
  rw [helse]
  generalize hb : (resetFloor || decide (t ≠ t')) = rebase
  have hat := at_landed s p t' rebase
  obtain ⟨hok, hreads⟩ : O ((s.view p).landed t' rebase) ∧ R ((s.view p).landed t' rebase) t' := by
    refine hP.landed h (fun hf => ?_) ht fun hc => hd ?_
    · subst hf
      have htt : t = t' := by simpa using (Bool.or_eq_false_iff.1 hb).2
      exact htt ▸ hg
    · rcases hc with hc | hc
      · subst hc
        rcases (Bool.or_eq_true_iff.1 hb) with hr | hne
        · exact .inl hr
        · exact .inr (.inl fun he => of_decide_eq_true hne he.symm)
      · exact .inr (.inr hc)
  have hspan : (s.view p).span = none → ((s.view p).landed t' rebase).span = none := by
    intro hn
    cases rebase with
    | true => rfl
    | false => exact hn
  have hgate : ((s.view p).landed t' rebase).gate ≠ .active := by
    cases rebase with
    | true => nofun
    | false =>
      intro ha
      cases ha.symm.trans (show (s.view p).gate = .needsSeek t from hg)
  have hpos : ∀ x, ((s.view p).landed t' rebase).position = some x → R ((s.view p).landed t' rebase) x := by
    intro x hx
    cases hx
    exact hreads
  rw [← hat.at_self] at hok hspan hgate hpos
  obtain ⟨v, hv, hpassed⟩ := resumeAndActivate_passed io hP hok hpos
  exact ⟨v, hat.trans hv, hpassed.after hspan hgate⟩

theorem fetchCommittedOffset_eq_some {s : Session} {fetched : Bool} {p : Partition} {c : Option ℤ}
    (h : s.fetchCommittedOffset fetched p = some c) : fetched = true ∧ c = s.broker.committed.lookup p := by
  unfold fetchCommittedOffset at h
  split_ifs at h with hf
  exact ⟨hf, (Option.some.inj h).symm⟩

theorem seekFailed_passed {s : Session} {p : Partition} {t' : ℤ} (hP : View.Passes O R) (h : O (s.view p))
    (hnoop : s.gate.mayNoopFailedSeek p (s.broker.committed.lookup p) t' = true →
      ∀ x ∈ s.broker.positions.lookup p, R (s.view p) x) :
    ∃ v, At s (s.seekFailed io p t') p v ∧ Passed O R (s.view p) v := by
  unfold seekFailed
  split
  · rename_i committed hc
    obtain ⟨-, rfl⟩ := fetchCommittedOffset_eq_some hc
    split_ifs with hn
    · exact resumeAndActivate_passed io hP h fun x hx => hnoop hn x hx
    · exact ⟨_, at_pausePartition s io p, .stay h⟩
  · exact ⟨_, at_pausePartition s io p, .stay h⟩

/-- A pending seek keeps the view in order. -/
theorem seekTo_passed {s : Session} {p : Partition} (t : ℤ) (hP : View.Passes O R) (h : O (s.view p))
    (hg : s.gate.state p = .needsSeek t)
    (hnoop : io.seek p = false →
      s.gate.mayNoopFailedSeek p (s.broker.committed.lookup p) (s.clampedSeekTarget p t).1 = true →
      ∀ x ∈ s.broker.positions.lookup p, R (s.view p) x) :
    ∃ v, At s (s.seekTo io p t) p v ∧ Passed O R (s.view p) v := by
  obtain ⟨hle, hdone⟩ := clampedSeekTarget_spec (t := t) fun ha => (hP.recreating h ha).2
  unfold seekTo
  dsimp only
  have hat := at_noteShrunk s p (s.clampedSeekTarget p t).2
  obtain ⟨hbro, hgate, htaint⟩ := noteShrunk_same s p (s.clampedSeekTarget p t).2
  generalize s.noteShrunk p (s.clampedSeekTarget p t).2 = s' at hat hbro hgate htaint ⊢
  have hv := hat.at_self
  have hg' : s'.gate.state p = .needsSeek t := (hgate p).trans hg
  split_ifs with hw hk
  · rw [← hv] at h hdone ⊢
    rw [← hbro] at hle
    obtain ⟨v, hv', hpassed⟩ := seekLanded_passed io hP h hg' hle hdone
    exact ⟨v, hat.trans hv', hpassed⟩
  · have hn : s'.gate.mayNoopFailedSeek p (s'.broker.committed.lookup p) (s.clampedSeekTarget p t).1 = true →
        ∀ x ∈ s'.broker.positions.lookup p, R (s'.view p) x := by
      unfold ResumeSeekGate.mayNoopFailedSeek at hnoop ⊢
      rw [hbro, htaint, hv]
      exact hnoop (Bool.not_eq_true _ ▸ hk)
    rw [← hv] at h ⊢
    obtain ⟨v, hv', hpassed⟩ := seekFailed_passed io hP h hn
    exact ⟨v, hat.trans hv', hpassed⟩
  · exact ⟨_, at_pausePartition s io p, .stay h⟩

/-! ## The pass -/

/-- Where the gate holds the partition for: a target, or the floor of a
restore. -/
def heldFor (s : Session) (p : Partition) : Option ℤ :=
  match s.gate.state p with
  | .needsSeek t => some t
  | .needsRestore f => some f
  | _ => none

def restoring (s : Session) (p : Partition) : Bool :=
  match s.gate.state p with
  | .needsRestore _ => true
  | _ => false

/-- The partition may be let through where the committed offset takes its
restore, and where it stands when its seek fails and the carve-out applies. -/
structure LetThrough (R : View → ℤ → Prop) (io : Io) (s : Session) (p : Partition) : Prop where
  restored : ∀ t ∈ s.heldFor p, s.restoring p = true → s.committedUntrusted p = false → io.committed p = true →
    R (s.view p) (restoreTarget false (s.broker.committed.lookup p) t)
  failed : ∀ t, (s.heldFor p = some t ∨ ∃ f, s.heldFor p = some f ∧ s.restoring p = true ∧
      s.committedUntrusted p = false ∧ io.committed p = true ∧
      t = restoreTarget false (s.broker.committed.lookup p) f) →
    io.seek p = false →
    s.gate.mayNoopFailedSeek p (s.broker.committed.lookup p) (s.clampedSeekTarget p t).1 = true →
    ∀ x ∈ s.broker.positions.lookup p, R (s.view p) x

/-- A target that was just resolved. -/
theorem resolved_passed {s s' : Session} {io : Io} {p : Partition} {t : ℤ} {armed : Bool} (hP : View.Passes O R)
    (h : O (s.view p)) (hg' : s'.gate.state p = .needsSeek t)
    (hat : At s s' p { s.view p with gate := .needsSeek t, armed := armed }) (ht : R (s.view p) t)
    (ha : armed = true → (s.view p).next = none ∧ (s.view p).evidence ≠ none)
    (hnoop : io.seek p = false →
      s'.gate.mayNoopFailedSeek p (s'.broker.committed.lookup p) (s'.clampedSeekTarget p t).1 = true →
      ∀ x ∈ s'.broker.positions.lookup p, R (s.view p) x) :
    ∃ v, At s (s'.seekTo io p t) p v ∧ Passed O R (s.view p) v := by
  have hok := hP.seek h ht ha
  rw [← hat.at_self] at hok
  obtain ⟨v, hv, hpassed⟩ := seekTo_passed io t hP hok hg' fun hk hn x hx => by
    rw [hat.at_self]
    exact hP.regate _ _ (hnoop hk hn x hx)
  refine ⟨v, hat.trans hv, hpassed.after (fun hn => by rw [hat.at_self]; exact hn) ?_⟩
  rw [hat.at_self]
  nofun

/-- One pending partition of a pass. -/
theorem activate_passed {io : Io} {s : Session} {p : Partition} (hP : View.Passes O R) (h : O (s.view p))
    (hr : LetThrough R io s p) : ∃ v, At s (activate io s p) p v ∧ Passed O R (s.view p) v := by
  have hpause : ∃ v, At s (s.pausePartition io p) p v ∧ Passed O R (s.view p) v :=
    ⟨_, at_pausePartition s io p, .stay h⟩
  unfold activate resolveTarget
  cases hg : s.gate.state p with
  | active => exact ⟨_, .refl s p, .stay h⟩
  | needsSeek t =>
    have hheld : s.heldFor p = some t := by rw [heldFor, hg]
    exact seekTo_passed io t hP h hg (hr.failed t (.inl hheld))
  | needsRestore f =>
    have hheld : s.heldFor p = some f := by rw [heldFor, hg]
    have hrest : s.restoring p = true := by rw [restoring, hg]
    dsimp only
    split_ifs with hu
    · exact resolved_passed hP h (by simp [restoreTarget]) (at_setTarget s p _) (hP.target h (.inr hg))
        (hP.recreating h) (hr.failed f (.inl hheld))
    · cases hc : s.fetchCommittedOffset (io.committed p) p with
      | none => exact hpause
      | some committed =>
        obtain ⟨hf, rfl⟩ := fetchCommittedOffset_eq_some hc
        have hu' : s.committedUntrusted p = false := by simpa using hu
        exact resolved_passed hP h (by simp) (at_setTarget s p _) (hr.restored f hheld hrest hu' hf)
          (hP.recreating h) (hr.failed _ (.inr ⟨f, hheld, hrest, hu', hf, rfl⟩))
  | needsTarget =>
    obtain ⟨hnext, -, hfree⟩ := hP.unresolved h hg
    cases hfr : s.frontier.partitions.lookup p with
    | none => exact resumeAndActivate_passed io hP h fun x _ => hfree x
    | some resume =>
      have hev : (s.view p).evidence ≠ none := by
        rw [show (s.view p).evidence = some resume from hfr]
        nofun
      dsimp only
      split_ifs with hre ho
      · exact resolved_passed hP h (by simp) (at_armRecreationFloor_setTarget s p _) (hfree _)
          (fun _ => ⟨hnext, hev⟩) fun _ _ x _ => hfree x
      · exact resolved_passed hP h (by simp) (at_armResetFloor_setTarget s p _) (hfree _)
          (fun _ => ⟨hnext, hev⟩) fun _ _ x _ => hfree x
      · cases hc : s.fetchCommittedOffset (io.committed p) p with
        | none => exact hpause
        | some committed =>
          exact resolved_passed hP h (by simp) (at_setTarget s p _) (hfree _) (fun _ => ⟨hnext, hev⟩)
            fun _ _ x _ => hfree x

end Passes

/-! ## Passes of views in order -/

/-- A partition whose span is still buffered is not let through above the place
the gate holds it for: neither by a committed offset above the floor of its
restore, nor, when the seek fails and the carve-out applies, by a fetch
position above it. -/
def RestoreOk (io : Io) (s : Session) (p : Partition) : Prop :=
  p ∈ s.buffer.offsetSpans → ∀ t ∈ s.heldFor p,
    (s.restoring p = true → s.committedUntrusted p = false → io.committed p = true →
      ∀ c ∈ s.broker.committed.lookup p, c ≤ t) ∧
    (io.seek p = false →
      s.gate.mayNoopFailedSeek p (s.broker.committed.lookup p) (s.clampedSeekTarget p t).1 = true →
      ∀ x ∈ s.broker.positions.lookup p, x ≤ t)

instance (io : Io) (s : Session) (p : Partition) : Decidable (RestoreOk io s p) :=
  inferInstanceAs (Decidable (_ → ∀ t ∈ s.heldFor p, _ ∧ _))

variable {io : Io}

/-- A partition that is not overtaken is let through at the place the gate
holds it for, which `O` answers for. -/
theorem letThrough_of_not_overtaken {O : View → Prop} {R : View → ℤ → Prop} {s : Session} {p : Partition}
    (hP : View.Passes O R) (h : O (s.view p)) (hmono : ∀ {x y}, R (s.view p) x → y ≤ x → R (s.view p) y)
    (hr : ∀ t ∈ s.heldFor p,
      (s.restoring p = true → s.committedUntrusted p = false → io.committed p = true →
        ∀ c ∈ s.broker.committed.lookup p, c ≤ t) ∧
      (io.seek p = false →
        s.gate.mayNoopFailedSeek p (s.broker.committed.lookup p) (s.clampedSeekTarget p t).1 = true →
        ∀ x ∈ s.broker.positions.lookup p, x ≤ t)) :
    LetThrough R io s p := by
  have htarget : ∀ t, s.heldFor p = some t → R (s.view p) t := by
    intro t ht
    refine hP.target h ?_
    unfold heldFor at ht
    dsimp only [view]
    cases hg : s.gate.state p with
    | needsSeek t' => rw [hg] at ht; exact .inl (congrArg _ (Option.some.inj ht))
    | needsRestore f => rw [hg] at ht; exact .inr (congrArg _ (Option.some.inj ht))
    | needsTarget => rw [hg] at ht; cases ht
    | active => rw [hg] at ht; cases ht
  have hfloor : ∀ f, s.heldFor p = some f → s.restoring p = true → s.committedUntrusted p = false →
      io.committed p = true → restoreTarget false (s.broker.committed.lookup p) f = f := by
    intro f hf hrest hu hc
    exact restoreTarget_eq_floor fun _ c hc' => (hr f hf).1 hrest hu hc c hc'
  constructor
  · intro t ht hrest hu hc
    rw [hfloor t ht hrest hu hc]
    exact htarget t ht
  · intro t ht hk hn x hx
    have hheld : s.heldFor p = some t := by
      rcases ht with ht | ⟨f, hf, hrest, hu, hc, rfl⟩
      · exact ht
      · rw [hfloor f hf hrest hu hc]
        exact hf
    exact hmono (htarget t hheld) ((hr t hheld).2 hk hn x hx)

theorem RestoreOk.letThrough {s : Session} {p : Partition} (hr : RestoreOk io s p) (h : (s.view p).Ok) :
    LetThrough View.Meets io s p := by
  by_cases hp : p ∈ s.buffer.offsetSpans
  · exact letThrough_of_not_overtaken View.Ok.passes h View.Meets.mono (hr hp)
  · have hfree : ∀ x, (s.view p).Meets x := by
      intro x sp hsp
      refine absurd (AList.lookup_isSome.1 ?_) hp
      rw [show s.buffer.offsetSpans.lookup p = some sp from hsp]
      rfl
    exact ⟨fun _ _ _ _ _ => hfree _, fun _ _ _ _ x _ => hfree x⟩

/-- A pass in which every partition is let through in order. -/
theorem pass_inv {ps : List Partition} {s : Session} (h : s.Inv) (hr : Guarded (activate io) (RestoreOk io) s ps) :
    (ps.foldl (activate io) s).Inv ∧ (ps.foldl (activate io) s).phase = s.phase := by
  induction ps generalizing s with
  | nil => exact ⟨h, rfl⟩
  | cons p ps ih =>
    obtain ⟨v, hv, hpassed⟩ := activate_passed View.Ok.passes (h p) (hr.1.letThrough (h p))
    obtain ⟨hi, hp⟩ := ih (hv.inv h hpassed.holds) hr.2
    exact ⟨hi, hp.trans hv.phase⟩

/-- With nothing buffered, every pass is in order. -/
theorem guarded_of_unbuffered {ps : List Partition} {s : Session} (h : s.Inv)
    (hs : ∀ p, (s.view p).span = none) : Guarded (activate io) (RestoreOk io) s ps := by
  induction ps generalizing s with
  | nil => trivial
  | cons p ps ih =>
    have hr : RestoreOk io s p := by
      intro hp
      rw [← AList.lookup_isSome, show s.buffer.offsetSpans.lookup p = none from hs p] at hp
      cases hp
    obtain ⟨v, hv, hpassed⟩ := activate_passed View.Ok.passes (h p) (hr.letThrough (h p))
    refine ⟨hr, ih (hv.inv h hpassed.holds) fun q => ?_⟩
    rw [hv.view]
    by_cases hq : q = p
    · subst hq
      rw [Function.update_self]
      exact hpassed.unbuffered (hs q)
    · rw [Function.update_of_ne hq]
      exact hs q

end Session

end FerroDruid.Kafka
