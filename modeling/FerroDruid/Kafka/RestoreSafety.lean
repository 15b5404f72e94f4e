import FerroDruid.Kafka.Loop
import FerroDruid.Lib.Bytes
/-!
# Commits and published records

A committed offset tells every later session that the records below it need
not be read again. So each record from the first one consumed up to a committed
offset has to be in a published segment, or have been delivered and
dead-lettered.

The tracker sees to that on its own: a span that starts above the frontier
never moves it, so a dropped batch pins the commit until it was read again.
What the tracker cannot see is a span that was merged over a forward seek.
`restore_target` takes the group's committed offset over the floor of the
restore, as progress another member made. In a group of one it can only be an
offset from before the session, and `resume_offset` and `OFFSET_OUT_OF_RANGE`
both start a session below such an offset. The seek then passes over records
that nobody read, and `record_offset` merges them into the buffered span as a
gap.
-/

namespace FerroDruid.Kafka

open Lib

namespace Session

/-- Every record of the log from the first one consumed up to a committed
offset is settled. -/
def CommitSafe (s : Session) : Prop :=
  ∀ p c, (p, c) ∈ s.history.commits → ∀ f, s.history.first.lookup p = some f →
    ∀ r ∈ (s.broker.logs p).records, f ≤ r → r < c → s.Settled p r

theorem Inv.commitSafe {s : Session} (h : s.Inv) : s.CommitSafe := by
  intro p c hc f hf r hr hfr hrc
  refine ((h p).commits c hc).2 r hr (fun f' hf' => ?_) hrc
  rw [show s.history.first.lookup p = some f' from hf'] at hf
  cases hf
  exact hfr

variable (commitsOffsets useEarliestOffset : Bool) (maxRows : ℕ) (frontier : ResumeFrontier)
  (logs : Partition → PartitionLog) (committed : HashMap Partition ℤ)

/-- Before the first poll nothing is tracked, buffered or assigned. -/
theorem start_sound : (start commitsOffsets useEarliestOffset maxRows frontier logs committed).Sound := by
  have harmed := start_armed commitsOffsets useEarliestOffset maxRows frontier logs committed
  refine ⟨fun p => ?_, fun _ _ p => ⟨rfl, harmed p⟩⟩
  exact
    { tracked := nofun
      started := fun hf => absurd rfl hf
      durable := nofun
      buffered := nofun
      gated := nofun
      position := nofun
      unresolved := fun _ => rfl
      resting := fun _ => harmed p
      recreating := fun ha => absurd ((harmed p).symm.trans ha) nofun
      commits := nofun }

/-- In every run in which the retry arm lets no partition through above its
buffered span, every commit is covered, in every state the run passes through. -/
theorem commit_safe (is : List Input)
    (h : Guarded step StepOk (start commitsOffsets useEarliestOffset maxRows frontier logs committed) is) :
    ∀ js, js <+: is →
      (js.foldl step (start commitsOffsets useEarliestOffset maxRows frontier logs committed)).CommitSafe := by
  intro js hjs
  refine Inv.commitSafe (Sound.inv ?_)
  exact (h.shorten hjs).inv Sound (fun s i hi hs => step_sound hs hi) (start_sound _ _ _ _ _ _)

instance (s : Session) : ∀ i, Decidable (StepOk s i)
  | .retry io =>
    match hp : s.phase with
    | .looping => decidable_of_iff
        (Guarded (activate io) (RestoreOk io) s.drainRebalanceAndRearm (s.drainRebalanceAndRearm.pendingAssigned io))
        (by simp only [StepOk, hp])
    | .joining _ => .isTrue (by simp only [StepOk, hp])
    | .stopped => .isTrue (by simp only [StepOk, hp])
  | .produce _ _ | .expire _ _ | .settleCommit _ | .assign _ | .revoke _ | .rebalanceError | .deliver _ _ _
  | .joined _ _ | .flush _ | .shutdown _ | .drift => .isTrue trivial

/-! ## Two runs -/

/-- A record of one row. -/
def oneRow : Option Payload := some ⟨some 1, 16⟩

/-- The records 0 and 1. -/
def twoRecords : PartitionLog := (PartitionLog.empty.append 0).append 0

/-- A failed publish and its re-seek, the dropped record read again, a rebalance
with that record buffered, the restore seek, and a publish. -/
def restoredRun : List Input :=
  [.assign [0], .deliver 0 oneRow .success, .flush { Io.success with sunk := false },
    .deliver 0 oneRow .success, .revoke [0], .assign [0], .retry .success,
    .deliver 0 oneRow .success, .flush .success]

theorem commit_safe_restored :
    (restoredRun.foldl step (start true true 100 ⟨∅, false⟩ (fun _ => twoRecords) ∅)).history.commits = [(0, 2)] ∧
      ∀ js, js <+: restoredRun →
        (js.foldl step (start true true 100 ⟨∅, false⟩ (fun _ => twoRecords) ∅)).CommitSafe :=
  ⟨by decide +kernel, commit_safe _ _ _ _ _ _ restoredRun (by decide +kernel)⟩

/-- The log was truncated below the committed offset 4, so the session starts at
the earliest record and reads it. Four more records are produced, and then a
rebalance makes the stale offset the restore target. -/
def staleRun : List Input :=
  [.assign [0], .deliver 0 oneRow .success, .produce 0 0, .produce 0 0, .produce 0 0, .produce 0 0,
    .revoke [0], .assign [0], .retry .success, .deliver 0 oneRow .success, .flush .success]

/-- The offset 5 is committed, and the record at 1 was never even delivered. -/
theorem stale_commit_restored :
    ¬ (staleRun.foldl step (start true true 100 ⟨∅, false⟩ (fun _ => twoRecords) (AList.insert 0 4 ∅))).CommitSafe := by
  intro h
  have hs := h 0 5 (by decide +kernel) 0 (by decide +kernel) 1 (by decide +kernel) (by decide) (by decide)
  rcases hs with hs | hs | ⟨resume, hs, -⟩
  · revert hs
    decide +kernel
  · revert hs
    decide +kernel
  · have hnone : (staleRun.foldl step (start true true 100 ⟨∅, false⟩ (fun _ => twoRecords)
        (AList.insert 0 4 ∅))).frontier.partitions.lookup 0 = none := by decide +kernel
    cases hs

end Session

/-! ## Restore seeks and dropped batches

After a rebalance a partition is restored to `safe_resume_frontier`: its
durable frontier, extended by what is still buffered. The floor is taken when
the gate is re-armed and used when the seek lands, and in between the buffer
may be lost: a publish that fails drops every buffered row, and
`arm_publish_failure_reseek` sends back only the partitions that are active.

A view is level when what it reads, or will be sought to, leaves nothing behind
above the durable frontier. Every move keeps that, except a publish that fails
while a gated partition has something buffered, and a pass that is overtaken by
the committed offset or by the fetch position (`RestoreStepOk`). -/

namespace View

/-- Every record of `[a, b)` is settled, or held in the buffer. -/
def Kept (v : View) (a b : ℤ) : Prop := ∀ r ∈ v.log.records, a ≤ r → r < b → v.settled r ∨ v.held r

def Past (v : View) (a b : ℤ) : Prop := ∀ r ∈ v.log.records, a ≤ r → r < b → v.settled r

/-- Going on from `x` leaves nothing behind above the frontier, and with no span
buffered it does not rest on the buffer. -/
def Resumes (v : View) (x : ℤ) : Prop :=
  ∀ d, v.next = some d → x ≤ v.log.high ∧ v.Kept d x ∧ (v.span = none → v.Past d x)

structure Level (v : View) : Prop where
  tracked : ∀ sp, v.span = some sp → v.next ≠ none
  durable : ∀ d, v.next = some d → d ≤ v.log.high
  buffered : ∀ sp d, v.span = some sp → v.next = some d → sp.next ≤ v.log.high ∧ v.Kept d sp.next
  position : ∀ x, v.position = some x → x ≤ v.log.high
  target : ∀ t, v.gate = .needsSeek t ∨ v.gate = .needsRestore t → v.Resumes t
  reads : v.gate = .active → ¬ v.touched → ∀ x d, v.position = some x → v.next = some d → v.Kept d x
  unresolved : v.gate = .needsTarget → v.next = none
  resting : v.gate = .active → v.armed = false
  recreating : v.armed = true → v.next = none ∧ v.evidence ≠ none

variable {v : View}

theorem Resumes.mono {x y : ℤ} (h : v.Resumes x) (hy : y ≤ x) : v.Resumes y := by
  intro d hd
  obtain ⟨hx, hk, hp⟩ := h d hd
  refine ⟨by omega, fun r hr ha hb => hk r hr ha (by omega), fun hs r hr ha hb => hp hs r hr ha (by omega)⟩

/-- At the frontier itself nothing is left behind. -/
theorem resumes_of_eq {d : ℤ} (hd : v.next = some d) (hh : d ≤ v.log.high) : v.Resumes d := by
  intro d' hd'
  rw [hd] at hd'
  cases hd'
  exact ⟨hh, fun r _ ha hb => by omega, fun _ r _ ha hb => by omega⟩

theorem resumes_of_none (hn : v.next = none) (x : ℤ) : v.Resumes x := by
  intro d hd
  rw [hn] at hd
  cases hd

/-- The floor of a restore rests on the span it was taken from. -/
theorem Level.safeFloor {f : ℤ} (h : v.Level) (hf : v.safeFloor = some f) : v.Resumes f := by
  unfold View.safeFloor at hf
  cases hs : v.span with
  | none =>
    rw [hs] at hf
    exact resumes_of_eq hf (h.durable f hf)
  | some sp =>
    rw [hs] at hf
    intro d hd
    have hbuf := h.buffered sp d hs hd
    have hdur := h.durable d hd
    simp only [hd, extendFloor, Option.some.injEq] at hf
    refine ⟨by omega, fun r hr ha hb => hbuf.2 r hr ha (by omega), fun hn => ?_⟩
    rw [hs] at hn
    cases hn

theorem Level.passes : Passes Level Resumes where
  target := fun h => h.target _
  unresolved := by
    intro v h hg
    have hn := h.unresolved hg
    refine ⟨hn, ?_, resumes_of_none hn⟩
    by_contra hs
    obtain ⟨sp, hsp⟩ := Option.ne_none_iff_exists'.1 hs
    exact h.tracked sp hsp hn
  recreating := fun h => h.recreating
  regate := fun _ _ h => h
  seek := by
    intro v t armed h hr ha
    exact
      { tracked := h.tracked
        durable := h.durable
        buffered := h.buffered
        position := h.position
        target := by
          rintro t' (ht | ht)
          · cases ht
            exact hr
          · cases ht
        reads := nofun
        unresolved := nofun
        resting := nofun
        recreating := ha }
  landed := by
    intro v t rebase h hg ht _
    have hx : ∀ x, some t = some x → x ≤ v.log.high := by
      intro x hx
      cases hx
      exact ht
    cases rebase with
    | true =>
      have hres : (v.landed t true).Resumes t := resumes_of_eq rfl ht
      refine ⟨?_, hres⟩
      exact
        { tracked := nofun
          durable := fun d hd => by cases hd; exact ht
          buffered := nofun
          position := hx
          target := by
            rintro t' (ht | ht)
            · cases ht
              exact hres
            · cases ht
          reads := nofun
          unresolved := nofun
          resting := nofun
          recreating := nofun }
    | false =>
      have hgate : v.gate = .needsSeek t := hg rfl
      refine ⟨?_, h.target t (.inl hgate)⟩
      exact
        { tracked := h.tracked
          durable := h.durable
          buffered := h.buffered
          position := hx
          target := h.target
          reads := fun ha => absurd (hgate.symm.trans ha) nofun
          unresolved := h.unresolved
          resting := fun _ => rfl
          recreating := nofun }
  activate := by
    intro v h hp
    exact
      { tracked := h.tracked
        durable := h.durable
        buffered := h.buffered
        position := h.position
        target := by rintro t (ht | ht) <;> cases ht
        reads := fun _ _ x d hx hd => (hp x hx d hd).2.1
        unresolved := nofun
        resting := fun _ => rfl
        recreating := nofun }

variable {settled : ℤ → Prop}

/-- A log that grew at its end or was cut at its start, with more settled and
more evidence. -/
theorem Level.extend {log : PartitionLog} {evidence : Option PartitionResume} (h : v.Level)
    (hhigh : v.log.high ≤ log.high) (hrec : ∀ r ∈ log.records, r < v.log.high → r ∈ v.log.records)
    (he : v.evidence ≠ none → evidence ≠ none) (hs : ∀ r, v.settled r → settled r) :
    { v with log := log, evidence := evidence, settled := settled }.Level := by
  have hkept : ∀ a b, b ≤ v.log.high → v.Kept a b →
      View.Kept { v with log := log, evidence := evidence, settled := settled } a b := fun a b hb hk r hr ha hlt =>
    (hk r (hrec r hr (by omega)) ha hlt).imp_left (hs r)
  exact
    { tracked := h.tracked
      durable := fun d hd => (h.durable d hd).trans hhigh
      buffered := fun sp d hsp hd =>
        ⟨(h.buffered sp d hsp hd).1.trans hhigh, hkept _ _ (h.buffered sp d hsp hd).1 (h.buffered sp d hsp hd).2⟩
      position := fun x hx => (h.position x hx).trans hhigh
      target := by
        intro t ht d hd
        obtain ⟨hx, hk, hp⟩ := h.target t ht d hd
        exact ⟨hx.trans hhigh, hkept _ _ hx hk, fun hn r hr ha hlt => hs r (hp hn r (hrec r hr (by omega)) ha hlt)⟩
      reads := fun hg ht x d hx hd => hkept _ _ (h.position x hx) (h.reads hg ht x d hx hd)
      unresolved := h.unresolved
      resting := h.resting
      recreating := fun ha => (h.recreating ha).imp_right he }

/-- A gate that moved to where nothing is left behind, and a partition that was
drained. -/
theorem Level.regate {gate : SeekGateState} {touched : Prop} (h : v.Level)
    (ht : ∀ t, gate = .needsSeek t ∨ gate = .needsRestore t → v.Resumes t) (hn : gate = .needsTarget → v.next = none)
    (ha : gate = .active → v.next = none ∧ v.armed = false ∨ v.gate = .active ∧ (¬ touched → ¬ v.touched)) :
    { v with gate := gate, touched := touched }.Level where
  tracked := h.tracked
  durable := h.durable
  buffered := h.buffered
  position := h.position
  target := ht
  reads := by
    intro hg htouch x d hx hd
    rcases ha hg with ⟨hnone, -⟩ | ⟨hact, hto⟩
    · cases hnone.symm.trans hd
    · exact h.reads hact (hto htouch) x d hx hd
  unresolved := hn
  resting := by
    intro hg
    rcases ha hg with ⟨-, harm⟩ | ⟨hact, -⟩
    · exact harm
    · exact h.resting hact
  recreating := h.recreating

variable {held : ℤ → Prop}

/-- A published buffer, with the frontier where it was or further on. -/
theorem Level.roll {committed : ℤ → Prop} {next : Option ℤ} (h : v.Level)
    (hs : ∀ r, v.settled r ∨ v.held r → settled r)
    (hn : ∀ d', next = some d' → d' ≤ v.log.high ∧ ∃ d, v.next = some d ∧ d ≤ d') (hnone : v.next = none → next = none) :
    { v with span := none, settled := settled, held := held, next := next, committed := committed }.Level := by
  have hpast : ∀ a b d, a ≤ d → v.Kept a b →
      View.Past { v with span := none, settled := settled, held := held, next := next, committed := committed } d b :=
    fun a b d had hk r hr hd hlt => hs r (hk r hr (had.trans hd) hlt)
  exact
    { tracked := nofun
      durable := fun d hd => (hn d hd).1
      buffered := nofun
      position := h.position
      target := by
        intro t ht d' hd'
        obtain ⟨-, d, hd, hle⟩ := hn d' hd'
        obtain ⟨hx, hk, -⟩ := h.target t ht d hd
        exact ⟨hx, fun r hr ha hlt => .inl (hpast d t d' hle hk r hr ha hlt), fun _ => hpast d t d' hle hk⟩
      reads := by
        intro hg ht x d' hx hd' r hr ha hlt
        obtain ⟨-, d, hd, hle⟩ := hn d' hd'
        exact .inl (hpast d x d' hle (h.reads hg ht x d hx hd) r hr ha hlt)
      unresolved := fun hg => hnone (h.unresolved hg)
      resting := h.resting
      recreating := fun ha => (h.recreating ha).imp_left hnone }

/-- A dropped buffer: what is gated rests on nothing that was in it, what is
active is sent back to the frontier. -/
theorem Level.fail (h : v.Level) (hF : v.gate ≠ .active → v.span = none) :
    { v with span := none, held := held, gate := v.sentBack }.Level := by
  have hback : v.sentBack ≠ .active ∨ v.next = none := by
    unfold sentBack
    split
    · exact .inl nofun
    · rename_i hne
      by_cases hg : v.gate = .active
      · right
        by_contra hn
        obtain ⟨d, hd⟩ := Option.ne_none_iff_exists'.1 hn
        exact hne d hg hd
      · exact .inl hg
  exact
    { tracked := nofun
      durable := h.durable
      buffered := nofun
      position := h.position
      target := by
        intro t ht
        unfold sentBack at ht
        split at ht
        · rename_i d hg hd
          obtain rfl : d = t := by simpa using ht
          exact resumes_of_eq hd (h.durable d hd)
        · have hne : v.gate ≠ .active := by rcases ht with ht | ht <;> rw [ht] <;> nofun
          intro d hd
          obtain ⟨hx, -, hp⟩ := h.target t ht d hd
          exact ⟨hx, fun r hr ha hlt => .inl (hp (hF hne) r hr ha hlt), fun _ => hp (hF hne)⟩
      reads := by
        intro hg _ x d _ hd
        rcases hback with hne | hn
        · exact absurd hg hne
        · cases hn.symm.trans hd
      unresolved := by
        intro hg
        unfold sentBack at hg
        split at hg
        · cases hg
        · exact h.unresolved hg
      resting := by
        intro hg
        unfold sentBack at hg
        split at hg
        · cases hg
        · exact h.resting hg
      recreating := h.recreating }

theorem Level.consume {x o : ℤ} (h : v.Level) (hg : v.gate = .active) (ht : ¬ v.touched)
    (hx : v.position = some x) (hn : v.log.nextFrom x = some o) (hs : ∀ r, v.settled r → settled r)
    (hh : ∀ r, v.held r → held r) (ho : settled o ∨ held o) :
    { v with
      position := some (o + 1), span := some (extended v.span o), next := some (v.next.getD o),
      first := some (v.first.getD o), settled := settled, held := held }.Level := by
  obtain ⟨ho_mem, hxo, hmin⟩ : o ∈ v.log.records ∧ x ≤ o ∧ ∀ r ∈ v.log.records, x ≤ r → o ≤ r := nextFrom_spec hn
  have hlt := (v.log.inRange o ho_mem).2
  have hsat : saturatingSucc o ≤ o + 1 := by
    unfold saturatingSucc
    omega
  -- Up to the record everything was kept, and the record is kept now.
  have hkept : ∀ d r, v.next.getD o = d → r ∈ v.log.records → d ≤ r → r < o + 1 → settled r ∨ held r := by
    intro d r hd hr ha hb
    by_cases hro : r = o
    · exact hro ▸ ho
    cases hnx : v.next with
    | none =>
      rw [hnx, Option.getD_none] at hd
      omega
    | some d' =>
      rw [hnx, Option.getD_some] at hd
      subst hd
      have hrx : r < x := by
        by_contra hxr
        have := hmin r hr (not_lt.1 hxr)
        omega
      exact (h.reads hg ht x d' hx hnx r hr ha hrx).imp (hs r) (hh r)
  exact
    { tracked := nofun
      durable := by
        intro d hd
        cases hnx : v.next with
        | none =>
          simp only [hnx, Option.getD_none, Option.some.injEq] at hd
          exact hd ▸ hlt.le
        | some d' =>
          simp only [hnx, Option.getD_some, Option.some.injEq] at hd
          exact hd ▸ h.durable d' hnx
      buffered := by
        intro sp d hsp hd
        cases hsp
        dsimp only
        rw [extended_next]
        exact ⟨by omega, fun r hr ha hb => hkept d r (Option.some.inj hd) hr ha (by omega)⟩
      position := by
        intro y hy
        cases hy
        exact hlt
      target := by
        rintro t (hne | hne) <;> cases hg.symm.trans hne
      reads := by
        intro _ _ y d hy hd r hr ha hb
        cases hy
        exact hkept d r (Option.some.inj hd) hr ha hb
      unresolved := fun hne => absurd (hg.symm.trans hne) nofun
      resting := fun _ => h.resting hg
      recreating := fun ha => absurd ((h.resting hg).symm.trans ha) nofun }

theorem Level.closed : Closed Level fun v => v.gate ≠ .active → v.span = none where
  tracked := fun h => h.tracked
  position := fun h => h.position
  append := fun {v} h gap => h.extend (high_le_append v.log gap) (fun _ => mem_of_mem_append) id fun _ => id
  expire := fun {v} h low => h.extend (high_expire v.log low).ge (fun _ hr _ => mem_of_mem_expire hr) id fun _ => id
  reposition := by
    intro v position touched h hp ht hm
    exact
      { tracked := h.tracked
        durable := h.durable
        buffered := h.buffered
        position := hp
        target := h.target
        reads := by
          intro hg htouch x d hx hd
          have hne : v.next ≠ none := fun hn => by cases hn.symm.trans (show v.next = some d from hd)
          exact h.reads hg (fun h' => htouch (ht h')) x d ((hm hne hg).resolve_left htouch x hx) hd
        unresolved := h.unresolved
        resting := h.resting
        recreating := h.recreating }
  settle := fun h he hs => h.extend le_rfl (fun _ hr _ => hr) he hs
  fresh := fun h hn ha => h.regate (fun t _ => resumes_of_none hn t) (fun _ => hn) fun _ => .inl ⟨hn, ha⟩
  drain := by
    intro v gate touched h hg
    rcases hg with ⟨f, hf, rfl⟩ | ⟨rfl, hn⟩ | ⟨rfl, ht⟩
    · refine h.regate ?_ nofun nofun
      rintro t (ht | ht)
      · cases ht
      · cases ht
        exact h.safeFloor hf
    · exact h.regate (by rintro t (ht | ht) <;> cases ht) (fun _ => hn) nofun
    · by_cases hn : v.next = none
      · exact h.regate h.target h.unresolved fun ha => .inl ⟨hn, h.resting ha⟩
      · exact h.regate h.target h.unresolved fun ha => .inr ⟨ha, fun _ htouch => hn (ht htouch)⟩
  publish := fun h hs => h.roll hs (fun d hd => ⟨h.durable d hd, d, hd, le_rfl⟩) id
  commit := by
    intro v settled held h hs
    refine h.roll hs (fun d' hd' => ?_) fun hn => ?_
    · rcases v.advanced_cases with ⟨ha, -⟩ | ⟨sp, e, hsp, ha, he⟩ | ⟨sp, hsp, ha, sp', hsp', hb, -⟩
      · rw [ha] at hd'
        exact ⟨h.durable d' hd', d', hd', le_rfl⟩
      · obtain ⟨d, hd⟩ := Option.ne_none_iff_exists'.1 (h.tracked sp hsp)
        rw [ha, he, hd, Option.getD_some] at hd'
        cases hd'
        exact ⟨h.durable _ hd, _, hd, le_rfl⟩
      · obtain ⟨d, hd⟩ := Option.ne_none_iff_exists'.1 (h.tracked sp hsp)
        rw [hsp] at hsp'
        cases hsp'
        rw [hd, Option.getD_some] at hb
        rw [ha] at hd'
        cases hd'
        exact ⟨(h.buffered sp d hsp hd).1, d, hd, hb.2.le⟩
    · rcases v.advanced_cases with ⟨ha, -⟩ | ⟨sp, e, hsp, -, -⟩ | ⟨sp, hsp, -, -⟩
      · rw [ha, hn]
      · exact absurd hn (h.tracked sp hsp)
      · exact absurd hn (h.tracked sp hsp)
  fail := fun h hF => h.fail hF
  consume := fun h => h.consume

end View

namespace Session

/-! ## Activations -/

/-- If the pass lets the partition through, every record of its log between the
durable frontier and the offset it goes on from is settled, or still held in
the buffer. -/
def ActivatesOk (io : Io) (s : Session) (p : Partition) : Prop :=
  s.gate.state p ≠ .active → (activate io s p).gate.state p = .active →
    ∀ d t, (activate io s p).contiguous.next.lookup p = some d → (activate io s p).broker.positions.lookup p = some t →
      ∀ r ∈ ((activate io s p).broker.logs p).records, d ≤ r → r < t →
        (activate io s p).Settled p r ∨ ⟨p, r⟩ ∈ (activate io s p).buffer.rows

/-- Every activation of the step. -/
def ActivationsOk (s : Session) (i : Input) : Prop :=
  ∀ e ∈ s.passOf i, Guarded (activate e.1) (ActivatesOk e.1) e.2 (e.2.pendingAssigned e.1)

/-- A partition with a durable frontier is not let through above the place the
gate holds it for. -/
def NotOvertaken (io : Io) (s : Session) (p : Partition) : Prop :=
  p ∈ s.contiguous.next → ∀ t ∈ s.heldFor p,
    (s.restoring p = true → s.committedUntrusted p = false → io.committed p = true →
      ∀ c ∈ s.broker.committed.lookup p, c ≤ t) ∧
    (io.seek p = false →
      s.gate.mayNoopFailedSeek p (s.broker.committed.lookup p) (s.clampedSeekTarget p t).1 = true →
      ∀ x ∈ s.broker.positions.lookup p, x ≤ t)

/-- What a step must not do: fail to publish while a gated partition has
something buffered, or let a partition be overtaken. -/
structure RestoreStepOk (s : Session) (i : Input) : Prop where
  flushed : ∀ e ∈ s.flushOf i, e.2.publishFails e.1 = true → ∀ p ∈ e.2.buffer.offsetSpans.keys, e.2.gate.state p = .active
  passed : ∀ e ∈ s.passOf i, Guarded (activate e.1) (NotOvertaken e.1) e.2 (e.2.pendingAssigned e.1)

instance (io : Io) (s : Session) (p : Partition) : Decidable (NotOvertaken io s p) :=
  inferInstanceAs (Decidable (_ → ∀ t ∈ s.heldFor p, _ ∧ _))

instance (s : Session) (i : Input) : Decidable (RestoreStepOk s i) :=
  decidable_of_iff
    ((∀ e ∈ s.flushOf i, e.2.publishFails e.1 = true → ∀ p ∈ e.2.buffer.offsetSpans.keys, e.2.gate.state p = .active) ∧
      ∀ e ∈ s.passOf i, Guarded (activate e.1) (NotOvertaken e.1) e.2 (e.2.pendingAssigned e.1))
    ⟨fun h => ⟨h.1, h.2⟩, fun h => ⟨h.flushed, h.passed⟩⟩

variable {s : Session}

theorem NotOvertaken.letThrough {io : Io} {p : Partition} (hr : NotOvertaken io s p)
    (h : (s.view p).Level) : LetThrough View.Resumes io s p := by
  by_cases hp : p ∈ s.contiguous.next
  · exact letThrough_of_not_overtaken View.Level.passes h View.Resumes.mono (hr hp)
  · have hfree := View.resumes_of_none (v := s.view p) (AList.lookup_eq_none.2 hp)
    exact ⟨fun _ _ _ _ _ => hfree _, fun _ _ _ _ x _ => hfree x⟩

/-- A pass that overtakes nothing keeps the views level and activates in order. -/
theorem pass_level {io : Io} {ps : List Partition} (h : s.Holds View.Level)
    (hr : Guarded (activate io) (NotOvertaken io) s ps) :
    (ps.foldl (activate io) s).Holds View.Level ∧ (ps.foldl (activate io) s).phase = s.phase ∧
      Guarded (activate io) (ActivatesOk io) s ps := by
  induction ps generalizing s with
  | nil => exact ⟨h, rfl, trivial⟩
  | cons p ps ih =>
    obtain ⟨v, hv, hpassed⟩ := activate_passed View.Level.passes (h p) (hr.1.letThrough (h p))
    obtain ⟨hi, hph, hok⟩ := ih (hv.holds h hpassed.holds) hr.2
    refine ⟨hi, hph.trans hv.phase, ?_, hok⟩
    intro hn ha d t hd ht
    have hself := hv.at_self
    have hreads := hpassed.reads (by rw [← hself]; exact ha) hn t (by rw [← hself]; exact ht) d (by rw [← hself]; exact hd)
    rw [← hself] at hreads
    exact hreads.2.1

/-- The invariant: while the loop has not stopped, every view is level. -/
def Standing (s : Session) : Prop := s.phase ≠ .stopped → s.Steady View.Level

/-- Nothing starts a stopped loop again. -/
theorem step_stopped (i : Input) (h : s.phase = .stopped) :
    (s.step i).phase = .stopped ∧ s.passOf i = none := by
  cases i with
  | deliver p payload io =>
    simp only [step, deliver, passOf, flushOf, h]
    cases s.nextRecord p <;> exact ⟨h, rfl⟩
  | expire p low =>
    simp only [step, expireLog]
    split_ifs <;> exact ⟨h, rfl⟩
  | joined io seen => simp [step, passOf, h]
  | flush io => simp [step, passOf, flushOf, whileLooping, h]
  | retry io => simp [step, passOf, whileLooping, h]
  | shutdown io => simp [step, passOf, flushOf, whileLooping, h]
  | drift => simp [step, passOf, flushOf, whileLooping, h]
  | produce p gap => exact ⟨h, rfl⟩
  | settleCommit landed => exact ⟨h, rfl⟩
  | assign ps => exact ⟨h, rfl⟩
  | revoke ps => exact ⟨h, rfl⟩
  | rebalanceError => exact ⟨h, rfl⟩

theorem step_standing {i : Input} (hi : RestoreStepOk s i) (h : s.Standing) :
    (s.step i).Standing ∧ ActivationsOk s i := by
  by_cases hstop : s.phase = .stopped
  · obtain ⟨hst, hnone⟩ := step_stopped i hstop
    refine ⟨fun hne => absurd hst hne, fun e he => ?_⟩
    rw [hnone] at he
    cases he
  by_cases hns : ∃ io, i = .shutdown io
  · obtain ⟨io, rfl⟩ := hns
    refine ⟨?_, fun e he => by cases he⟩
    simp only [step, whileLooping]
    cases hp : s.phase with
    | looping => exact fun hne => absurd (shutdown_phase s io) hne
    | joining e => exact h
    | stopped => exact absurd hp hstop
  have hst := step_steps View.Level.closed (h hstop) (fun io he => hns ⟨io, he⟩) fun io s' hf hp q hg => by
    by_contra hsp
    obtain ⟨sp, hsp⟩ := Option.ne_none_iff_exists'.1 hsp
    refine hg (hi.flushed (io, s') hf hp q (AList.mem_keys.1 (AList.lookup_isSome.1 ?_)))
    rw [show s'.buffer.offsetSpans.lookup q = some sp from hsp]
    rfl
  unfold ActivationsOk
  have hpassed := hi.passed
  generalize s.passOf i = pass, s.step i = s'' at hst hpassed
  cases hst with
  | pass holds looping unbuffered =>
    rename_i io s'
    obtain ⟨hl, hph, hok⟩ := pass_level holds (hpassed (io, s') rfl)
    constructor
    · intro _
      unfold tryActivatePending
      split_ifs
      · exact .of_looping holds looping
      · exact .of_looping hl (hph.trans looping)
    · rintro e ⟨⟩
      exact hok
  | rest steady => exact ⟨fun _ => steady, fun e he => by cases he⟩

/-! ## Every run -/

variable (commitsOffsets useEarliestOffset : Bool) (maxRows : ℕ) (frontier : ResumeFrontier)
  (logs : Partition → PartitionLog) (committed : HashMap Partition ℤ)

theorem start_standing : (start commitsOffsets useEarliestOffset maxRows frontier logs committed).Standing := by
  have harmed := start_armed commitsOffsets useEarliestOffset maxRows frontier logs committed
  refine fun _ => ⟨fun p => ?_, fun _ _ p => ⟨rfl, harmed p⟩⟩
  exact
    { tracked := nofun
      durable := nofun
      buffered := nofun
      position := nofun
      target := fun t _ => View.resumes_of_none rfl t
      reads := nofun
      unresolved := fun _ => rfl
      resting := fun _ => harmed p
      recreating := fun ha => absurd ((harmed p).symm.trans ha) nofun }

/-- In every run in which no publish fails while a gated partition has something
buffered, and no pass is overtaken, every activation leaves nothing behind. -/
theorem restores_safe (is : List Input)
    (h : Guarded step RestoreStepOk (start commitsOffsets useEarliestOffset maxRows frontier logs committed) is) :
    Guarded step ActivationsOk (start commitsOffsets useEarliestOffset maxRows frontier logs committed) is :=
  h.guard Standing (fun _ _ => step_standing) (start_standing _ _ _ _ _ _)

theorem restores_safe_restored :
    (((restoredRun.take 6).foldl step
      (start true true 100 ⟨∅, false⟩ (fun _ => twoRecords) ∅)).drainRebalanceAndRearm.pendingAssigned .success = [0]) ∧
      Guarded step ActivationsOk (start true true 100 ⟨∅, false⟩ (fun _ => twoRecords) ∅) restoredRun :=
  ⟨by decide +kernel, restores_safe _ _ _ _ _ _ restoredRun (by decide +kernel)⟩

/-- Two records are buffered when a rebalance arms the restore. The watermarks
cannot be fetched, so the partition stays gated; the publish then fails, and
the retry seeks to the floor that was taken from the lost buffer. -/
def droppedRun : List Input :=
  [.assign [0], .deliver 0 oneRow .success, .deliver 0 oneRow .success, .revoke [0], .assign [0],
    .retry { Io.success with watermarks := fun _ => false }, .flush { Io.success with sunk := false }]

def droppedSession : Session := droppedRun.foldl step (start true true 100 ⟨∅, false⟩ (fun _ => twoRecords) ∅)

/-- The partition becomes active at 2, and the record at 0 is nowhere. -/
theorem restore_over_dropped_batch :
    ¬ Guarded step ActivationsOk (start true true 100 ⟨∅, false⟩ (fun _ => twoRecords) ∅)
      (droppedRun ++ [.retry .success]) := by
  intro h
  have hlast : ActivationsOk droppedSession (.retry .success) := ((guarded_append _ _ _).1 h).2.1
  have hpass := hlast (.success, droppedSession.drainRebalanceAndRearm) rfl
  rcases hpass.1 (by decide +kernel) (by decide +kernel) 0 2 (by decide +kernel) (by decide +kernel) 0 (by decide +kernel)
    (by decide) (by decide) with (hs | hs | ⟨resume, hs, -⟩) | hs
  · revert hs
    decide +kernel
  · revert hs
    decide +kernel
  · have hnone : (activate .success droppedSession.drainRebalanceAndRearm 0).frontier.partitions.lookup 0 = none := by
      decide +kernel
    cases hs
  · revert hs
    decide +kernel

end Session

end FerroDruid.Kafka
