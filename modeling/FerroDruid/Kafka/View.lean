import FerroDruid.Kafka.Session
/-!
# What one partition sees of a session

Four cursors of a partition move independently: the committed offset, the
durable frontier of `ContiguousFrontier`, the buffered span and the fetch
position. A `View` is what one partition sees of a session, and `View.Ok`
relates the four: below the frontier everything is settled, inside the span
everything is settled or held in the buffer, and the place the partition is
read from, or will be sought to, leaves nothing behind above the span.

The lemmas here say what keeps a view in order; the session's functions are
compared with them in `Activation` and `Loop`.
-/

namespace FerroDruid.Kafka

open Lib List

/-! ## One partition's view -/

structure View where
  log : PartitionLog
  next : Option ℤ
  span : Option OffsetSpan
  gate : SeekGateState
  /-- The pending seek is a recreation-floor seek. -/
  armed : Bool
  evidence : Option PartitionResume
  position : Option ℤ
  first : Option ℤ
  settled : ℤ → Prop
  held : ℤ → Prop
  committed : ℤ → Prop
  /-- A rebalance that touched the partition is not yet drained. -/
  touched : Prop

namespace View

/-- The offset is not before the first one consumed. -/
def From (v : View) (r : ℤ) : Prop := ∀ f, v.first = some f → f ≤ r

/-- Every record below `b` is settled. -/
def Done (v : View) (b : ℤ) : Prop := ∀ r ∈ v.log.records, v.From r → r < b → v.settled r

/-- Every record of `[a, b)` is settled, or held in the buffer. -/
def KeptTo (v : View) (a b : ℤ) : Prop :=
  ∀ r ∈ v.log.records, v.From r → a ≤ r → r < b → v.settled r ∨ v.held r

/-- Reading on from where the gate stands leaves nothing behind above `n`. -/
def GateOk (v : View) (n : ℤ) : Prop :=
  match v.gate with
  | .needsTarget => True
  | .needsSeek t | .needsRestore t => t ≤ v.log.high ∧ v.KeptTo n t
  | .active => v.touched ∨ ∀ x, v.position = some x → v.KeptTo n x

structure Ok (v : View) : Prop where
  tracked : ∀ sp, v.span = some sp → v.next ≠ none
  started : v.first ≠ none → v.next ≠ none
  durable : ∀ d, v.next = some d → d ≤ v.log.high ∧ v.Done d
  buffered : ∀ sp, v.span = some sp → sp.next ≤ v.log.high ∧ v.KeptTo sp.start sp.next
  gated : ∀ sp, v.span = some sp → v.GateOk sp.next
  position : ∀ x, v.position = some x → x ≤ v.log.high
  unresolved : v.gate = .needsTarget → v.next = none
  resting : v.gate = .active → v.armed = false
  recreating : v.armed = true → v.next = none ∧ v.evidence ≠ none
  commits : ∀ c, v.committed c → c ≤ v.log.high ∧ v.Done c

variable {l : PartitionLog}

/-- The record a fetch returns is the least one at or after the position. -/
theorem nextFrom_spec {x o : ℤ} (h : l.nextFrom x = some o) :
    o ∈ l.records ∧ x ≤ o ∧ ∀ r ∈ l.records, x ≤ r → o ≤ r := by
  obtain ⟨hx, as, bs, hl, has⟩ := find?_eq_some_iff_append.1 h
  rw [decide_eq_true_eq] at hx
  refine ⟨mem_of_find?_eq_some h, hx, fun r hr hxr => ?_⟩
  have hsorted := l.sorted
  rw [hl] at hr hsorted
  rcases mem_append.1 hr with hr | hr
  · have := has r hr
    simp only [Bool.not_eq_true', decide_eq_false_iff_not] at this
    omega
  · rcases mem_cons.1 hr with rfl | hr
    · exact le_rfl
    · exact ((pairwise_cons.1 (pairwise_append.1 hsorted).2.1).1 r hr).le

theorem high_le_append (l : PartitionLog) (gap : ℕ) : l.high ≤ (l.append gap).high := by
  unfold PartitionLog.append
  split_ifs
  · dsimp only
    omega
  · exact le_rfl

/-- A new record stands at or above the old end of the log. -/
theorem mem_of_mem_append {gap : ℕ} {r : ℤ} (hr : r ∈ (l.append gap).records) (hlt : r < l.high) :
    r ∈ l.records := by
  unfold PartitionLog.append at hr
  split_ifs at hr
  · rcases mem_append.1 hr with hr | hr
    · exact hr
    · rw [mem_singleton] at hr
      omega
  · exact hr

theorem high_expire (l : PartitionLog) (low : ℤ) : (l.expire low).high = l.high := by
  unfold PartitionLog.expire
  split_ifs <;> rfl

theorem mem_of_mem_expire {low r : ℤ} (hr : r ∈ (l.expire low).records) : r ∈ l.records := by
  unfold PartitionLog.expire at hr
  split_ifs at hr
  · exact (mem_filter.1 hr).1
  · exact hr

variable {v : View}

theorem KeptTo.mono {a b c : ℤ} (h : v.KeptTo a b) (hc : c ≤ b) : v.KeptTo a c := fun r hr hf ha hb =>
  h r hr hf ha (by omega)

/-- A gate that did not move is in order when the two cursors it may stand at
are. -/
theorem GateOk.imp {v' : View} {n : ℤ} (h : v.GateOk n) (hg : v'.gate = v.gate)
    (ht : ∀ t, t ≤ v.log.high ∧ v.KeptTo n t → t ≤ v'.log.high ∧ v'.KeptTo n t)
    (ha : v.gate = .active → (v.touched ∨ ∀ x, v.position = some x → v.KeptTo n x) →
      v'.touched ∨ ∀ x, v'.position = some x → v'.KeptTo n x) : v'.GateOk n := by
  unfold GateOk at h ⊢
  rw [hg]
  cases hv : v.gate with
  | needsTarget => trivial
  | needsSeek t | needsRestore t =>
    rw [hv] at h
    exact ht t h
  | active =>
    rw [hv] at h
    exact ha hv h

/-- A partition with nothing buffered may be sent anywhere. -/
theorem Ok.seek {t : ℤ} {armed : Bool} (h : v.Ok) (hs : ∀ sp, v.span = some sp → t ≤ v.log.high ∧ v.KeptTo sp.next t)
    (ha : armed = true → v.next = none ∧ v.evidence ≠ none) :
    { v with gate := .needsSeek t, armed := armed }.Ok where
  tracked := h.tracked
  started := h.started
  durable := h.durable
  buffered := h.buffered
  gated := hs
  position := h.position
  unresolved := nofun
  resting := nofun
  recreating := ha
  commits := h.commits

/-- A seek to the validated target `t`. When the target was moved the frontier
and the span give way to it, and a recreation floor is committed: either way
everything below it has to be settled. -/
def landed (v : View) (t : ℤ) (rebase : Bool) : View :=
  { v with
    position := some t
    gate := if rebase then .needsSeek t else v.gate
    next := if rebase then some t else v.next
    span := if rebase then none else v.span
    armed := false
    committed := fun c => v.committed c ∨ v.armed = true ∧ c = t }

theorem Ok.landed {t : ℤ} {rebase : Bool} (h : v.Ok) (hg : rebase = false → v.gate = .needsSeek t)
    (ht : t ≤ v.log.high) (hd : rebase = true ∨ v.armed = true → v.Done t) : (v.landed t rebase).Ok := by
  have hc : ∀ c, v.committed c ∨ v.armed = true ∧ c = t → c ≤ v.log.high ∧ v.Done c := by
    rintro c (hc | ⟨ha, rfl⟩)
    · exact h.commits c hc
    · exact ⟨ht, hd (.inr ha)⟩
  have hx : ∀ x, some t = some x → x ≤ v.log.high := by
    rintro x hx
    cases hx
    exact ht
  cases rebase with
  | true =>
    exact
      { tracked := nofun
        started := nofun
        durable := by
          rintro d hd'
          cases hd'
          exact ⟨ht, hd (.inl rfl)⟩
        buffered := nofun
        gated := nofun
        position := hx
        unresolved := nofun
        resting := fun _ => rfl
        recreating := nofun
        commits := hc }
  | false =>
    refine
      { tracked := h.tracked
        started := h.started
        durable := h.durable
        buffered := h.buffered
        gated := ?_
        position := hx
        unresolved := h.unresolved
        resting := fun _ => rfl
        recreating := nofun
        commits := hc }
    intro sp hsp
    have hgo := h.gated sp hsp
    simp only [GateOk, View.landed, Bool.false_eq_true, ite_false, hg rfl] at hgo ⊢
    exact hgo

/-- Activation, from a position that leaves nothing behind. -/
theorem Ok.activate (h : v.Ok) (hp : ∀ sp x, v.span = some sp → v.position = some x → v.KeptTo sp.next x) :
    { v with gate := .active, armed := false }.Ok where
  tracked := h.tracked
  started := h.started
  durable := h.durable
  buffered := h.buffered
  gated := fun sp hs => .inr fun x hx => hp sp x hs hx
  position := h.position
  unresolved := nofun
  resting := fun _ => rfl
  recreating := nofun
  commits := h.commits

/-! ## What Kafka does -/

theorem Ok.append (h : v.Ok) (gap : ℕ) : { v with log := v.log.append gap }.Ok := by
  have hhigh := high_le_append v.log gap
  have hdone : ∀ b, b ≤ v.log.high ∧ v.Done b →
      b ≤ (v.log.append gap).high ∧ View.Done { v with log := v.log.append gap } b := fun b ⟨hb, hd⟩ =>
    ⟨hb.trans hhigh, fun r hr hf hlt => hd r (mem_of_mem_append hr (by omega)) hf hlt⟩
  have hkept : ∀ a b, b ≤ v.log.high → v.KeptTo a b → View.KeptTo { v with log := v.log.append gap } a b :=
    fun a b hb hk r hr hf ha hlt => hk r (mem_of_mem_append hr (by omega)) hf ha hlt
  refine
    { tracked := h.tracked
      started := h.started
      durable := fun d hd => hdone d (h.durable d hd)
      buffered := fun sp hsp => ⟨(h.buffered sp hsp).1.trans hhigh, hkept _ _ (h.buffered sp hsp).1 (h.buffered sp hsp).2⟩
      gated := ?_
      position := fun x hx => (h.position x hx).trans hhigh
      unresolved := h.unresolved
      resting := h.resting
      recreating := h.recreating
      commits := fun c hc => hdone c (h.commits c hc) }
  intro sp hsp
  refine (h.gated sp hsp).imp rfl (fun t hgo => ⟨hgo.1.trans hhigh, hkept _ _ hgo.1 hgo.2⟩) fun _ hgo => ?_
  exact hgo.imp_right fun hk x hx => hkept _ _ (h.position x hx) (hk x hx)

theorem Ok.expire (h : v.Ok) (low : ℤ) : { v with log := v.log.expire low }.Ok := by
  have hhigh := high_expire v.log low
  have hdone : ∀ b, v.Done b → View.Done { v with log := v.log.expire low } b := fun b hd r hr => hd r (mem_of_mem_expire hr)
  have hkept : ∀ a b, v.KeptTo a b → View.KeptTo { v with log := v.log.expire low } a b :=
    fun a b hk r hr => hk r (mem_of_mem_expire hr)
  refine
    { tracked := h.tracked
      started := h.started
      durable := fun d hd => ⟨hhigh ▸ (h.durable d hd).1, hdone d (h.durable d hd).2⟩
      buffered := fun sp hsp => ⟨hhigh ▸ (h.buffered sp hsp).1, hkept _ _ (h.buffered sp hsp).2⟩
      gated := ?_
      position := fun x hx => hhigh ▸ h.position x hx
      unresolved := h.unresolved
      resting := h.resting
      recreating := h.recreating
      commits := fun c hc => ⟨hhigh ▸ (h.commits c hc).1, hdone c (h.commits c hc).2⟩ }
  intro sp hsp
  refine (h.gated sp hsp).imp rfl (fun t hgo => ⟨hhigh ▸ hgo.1, hkept _ _ hgo.2⟩) fun _ hgo => ?_
  exact hgo.imp_right fun hk x hx => hkept _ _ (hk x hx)

variable {touched : Prop}

/-- A partition that is read into a span moves only while the notice of it is
pending. -/
theorem Ok.reposition {position : Option ℤ} (h : v.Ok) (hp : ∀ x, position = some x → x ≤ v.log.high)
    (ht : v.touched → touched)
    (hm : v.span ≠ none → v.gate = .active → touched ∨ ∀ x, position = some x → v.position = some x) :
    { v with position := position, touched := touched }.Ok := by
  refine
    { tracked := h.tracked
      started := h.started
      durable := h.durable
      buffered := h.buffered
      gated := ?_
      position := hp
      unresolved := h.unresolved
      resting := h.resting
      recreating := h.recreating
      commits := h.commits }
  intro sp hsp
  refine (h.gated sp hsp).imp rfl (fun t hgo => hgo) fun ha hgo => ?_
  rcases hgo with hgo | hgo
  · exact .inl (ht hgo)
  · have hne : v.span ≠ none := fun hn => by
      rw [show v.span = some sp from hsp] at hn
      cases hn
    exact (hm hne ha).imp_right fun hx x hp => hgo x (hx x hp)

/-! ## What the loop does -/

/-- Before its first record a partition may be gated in any way. -/
theorem Ok.fresh {gate : SeekGateState} (h : v.Ok) (hn : v.next = none) (ha : v.armed = false) :
    { v with gate := gate, touched := touched }.Ok where
  tracked := h.tracked
  started := h.started
  durable := h.durable
  buffered := h.buffered
  gated := fun sp hsp => absurd hn (h.tracked sp hsp)
  position := h.position
  unresolved := fun _ => hn
  resting := fun _ => ha
  recreating := h.recreating
  commits := h.commits

variable {settled : ℤ → Prop}

/-- More may become settled, and more evidence may be found. -/
theorem Ok.settle {evidence : Option PartitionResume} (h : v.Ok)
    (he : v.evidence ≠ none → evidence ≠ none) (hs : ∀ r, v.settled r → settled r) :
    { v with evidence := evidence, settled := settled }.Ok := by
  have hkept : ∀ a b, v.KeptTo a b → View.KeptTo { v with evidence := evidence, settled := settled } a b :=
    fun a b hk r hr hf ha hb => (hk r hr hf ha hb).imp_left (hs r)
  refine
    { tracked := h.tracked
      started := h.started
      durable := fun d hd => (h.durable d hd).imp_right fun hd r hr hf hb => hs r (hd r hr hf hb)
      buffered := fun sp hsp => (h.buffered sp hsp).imp_right (hkept _ _)
      gated := ?_
      position := h.position
      unresolved := h.unresolved
      resting := h.resting
      recreating := fun ha => (h.recreating ha).imp_right he
      commits := fun c hc => (h.commits c hc).imp_right fun hd r hr hf hb => hs r (hd r hr hf hb) }
  intro sp hsp
  refine (h.gated sp hsp).imp rfl (fun t hgo => hgo.imp_right (hkept _ _)) fun _ hgo => ?_
  exact hgo.imp_right fun hk x hx => hkept _ _ (hk x hx)

/-- The drain of a rebalance notice: a partition it touched is sent to its
floor, one that was never read is resolved afresh, and an untouched one keeps
its state. -/
theorem Ok.drain {gate : SeekGateState} (h : v.Ok)
    (hg : (∃ f, gate = .needsRestore f ∧ ∀ sp, v.span = some sp → f ≤ v.log.high ∧ v.KeptTo sp.next f) ∨
      gate = .needsTarget ∧ v.next = none ∨ gate = v.gate ∧ (v.touched → v.span = none)) :
    { v with gate := gate, touched := touched }.Ok := by
  refine
    { tracked := h.tracked
      started := h.started
      durable := h.durable
      buffered := h.buffered
      gated := ?_
      position := h.position
      unresolved := ?_
      resting := ?_
      recreating := h.recreating
      commits := h.commits }
  · intro sp hsp
    rcases hg with ⟨f, rfl, hf⟩ | ⟨rfl, -⟩ | ⟨rfl, ht⟩
    · exact hf sp hsp
    · trivial
    · refine (h.gated sp hsp).imp rfl (fun t hgo => hgo) fun _ hgo => hgo.imp_left fun ht' => ?_
      have hnone : v.span = none := ht ht'
      rw [show v.span = some sp from hsp] at hnone
      cases hnone
  · rintro rfl
    rcases hg with ⟨f, hf, -⟩ | ⟨-, hn⟩ | ⟨hv, -⟩
    · cases hf
    · exact hn
    · exact h.unresolved hv.symm
  · rintro rfl
    rcases hg with ⟨f, hf, -⟩ | ⟨hf, -⟩ | ⟨hv, -⟩
    · cases hf
    · cases hf
    · exact h.resting hv.symm

variable {held : ℤ → Prop}

/-- A roll takes every span out of the buffer. -/
theorem Ok.roll (h : v.Ok) (hs : ∀ r, v.settled r → settled r) :
    { v with span := none, settled := settled, held := held }.Ok where
  tracked := nofun
  started := h.started
  durable := fun d hd => (h.durable d hd).imp_right fun hd r hr hf hb => hs r (hd r hr hf hb)
  buffered := nofun
  gated := nofun
  position := h.position
  unresolved := h.unresolved
  resting := h.resting
  recreating := h.recreating
  commits := fun c hc => (h.commits c hc).imp_right fun hd r hr hf hb => hs r (hd r hr hf hb)

/-- The frontier advances over what a published segment covered. -/
theorem Ok.advance {next : Option ℤ} {committed : ℤ → Prop} (h : v.Ok) (hs : v.span = none)
    (hn : next = none ↔ v.next = none) (hd : ∀ d, next = some d → d ≤ v.log.high ∧ v.Done d)
    (hc : ∀ c, committed c → c ≤ v.log.high ∧ v.Done c) : { v with next := next, committed := committed }.Ok where
  tracked := by
    intro sp hsp
    rw [show v.span = some sp from hsp] at hs
    cases hs
  started := fun hf hnone => h.started hf (hn.1 hnone)
  durable := hd
  buffered := by
    intro sp hsp
    rw [show v.span = some sp from hsp] at hs
    cases hs
  gated := by
    intro sp hsp
    rw [show v.span = some sp from hsp] at hs
    cases hs
  position := h.position
  unresolved := fun hg => hn.2 (h.unresolved hg)
  resting := h.resting
  recreating := fun ha => ⟨hn.2 (h.recreating ha).1, (h.recreating ha).2⟩
  commits := hc

/-- A span after the record at `o`. -/
def extended (span : Option OffsetSpan) (o : ℤ) : OffsetSpan :=
  match span with
  | some sp => if o < sp.next then ⟨o, saturatingSucc o⟩ else { sp with next := saturatingSucc o }
  | none => ⟨o, saturatingSucc o⟩

theorem extended_next (span : Option OffsetSpan) (o : ℤ) : (extended span o).next = saturatingSucc o := by
  unfold extended
  split
  · split_ifs <;> rfl
  · rfl

/-- An active partition consumes the next record of its log, into the buffer or
as a dead letter. -/
theorem Ok.consume {x o : ℤ} (h : v.Ok) (hg : v.gate = .active) (ht : ¬ v.touched)
    (hx : v.position = some x) (hn : v.log.nextFrom x = some o) (hs : ∀ r, v.settled r → settled r)
    (hh : ∀ r, v.held r → held r) (ho : settled o ∨ held o) :
    { v with
      position := some (o + 1), span := some (extended v.span o), next := some (v.next.getD o),
      first := some (v.first.getD o), settled := settled, held := held }.Ok := by
  obtain ⟨ho_mem, hxo, hmin⟩ : o ∈ v.log.records ∧ x ≤ o ∧ ∀ r ∈ v.log.records, x ≤ r → o ≤ r := nextFrom_spec hn
  have hlt := (v.log.inRange o ho_mem).2
  have hmax := v.log.bounded
  have hsat : saturatingSucc o ≤ o + 1 ∧ (o < i64Max → saturatingSucc o = o + 1) ∧ (o = i64Max → saturatingSucc o = o) := by
    unfold saturatingSucc
    omega
  have hfrom : ∀ r, (∀ f, some (v.first.getD o) = some f → f ≤ r) → v.From r := by
    intro r hr f hf
    exact hr f (by rw [hf, Option.getD_some])
  have hkeep : ∀ r, v.settled r ∨ v.held r → settled r ∨ held r := fun r => Or.imp (hs r) (hh r)
  have hdone : ∀ b, v.Done b → ∀ r ∈ v.log.records, (∀ f, some (v.first.getD o) = some f → f ≤ r) → r < b → settled r :=
    fun b hd r hr hf hb => hs r (hd r hr (hfrom r hf) hb)
  refine
    { tracked := nofun
      started := nofun
      durable := ?_
      buffered := ?_
      gated := ?_
      position := ?_
      unresolved := fun hn => absurd (hg.symm.trans hn) nofun
      resting := fun _ => h.resting hg
      recreating := fun ha => absurd ((h.resting hg).symm.trans ha) nofun
      commits := fun c hc => (h.commits c hc).imp_right (hdone c) }
  · intro d hd
    cases hnx : v.next with
    | some d' =>
      simp only [hnx, Option.getD_some, Option.some.injEq] at hd
      subst hd
      exact (h.durable d' hnx).imp_right (hdone d')
    | none =>
      -- The first record consumed is the base, and nothing stands between.
      simp only [hnx, Option.getD_none, Option.some.injEq] at hd
      subst hd
      refine ⟨hlt.le, fun r _ hf hb => ?_⟩
      have hfirst : v.first = none := by
        by_contra hf
        exact h.started hf hnx
      have := hf o (by rw [hfirst, Option.getD_none])
      omega
  · intro sp hsp
    cases hsp
    have hle : (extended v.span o).next ≤ v.log.high := by
      rw [extended_next]
      omega
    refine ⟨hle, fun r hr hf ha hb => ?_⟩
    rw [extended_next] at hb
    by_cases hro : r = o
    · exact hro ▸ ho
    -- Only a merged span reaches below the record.
    cases hv : v.span with
    | none =>
      simp only [hv, extended] at ha
      omega
    | some sp =>
      simp only [hv, extended] at ha
      split_ifs at ha with hb'
      · dsimp only at ha
        omega
      · refine hkeep r ?_
        by_cases hin : r < sp.next
        · exact (h.buffered sp hv).2 r hr (hfrom r hf) ha hin
        · have hgo := h.gated sp hv
          rw [GateOk, hg] at hgo
          refine (hgo.resolve_left ht) x hx r hr (hfrom r hf) (not_lt.1 hin) ?_
          by_contra hxr
          have := hmin r hr (not_lt.1 hxr)
          omega
  · intro sp hsp
    cases hsp
    rw [GateOk, hg]
    refine .inr fun y hy r hr hf ha hb => ?_
    cases hy
    rw [extended_next] at ha
    have hro : r = o := by omega
    exact hro ▸ ho
  · intro y hy
    cases hy
    exact hlt

/-! ## Predicates the session keeps -/

/-- `safe_resume_frontier`, at one partition. -/
def safeFloor (v : View) : Option ℤ :=
  match v.span with
  | none => v.next
  | some sp => some (extendFloor v.next sp)

/-- A span that starts at or below the frontier and ends above it. -/
def Bridges (d : ℤ) (sp : OffsetSpan) : Prop := sp.start ≤ d ∧ sp.next > d

instance (d : ℤ) (sp : OffsetSpan) : Decidable (Bridges d sp) := inferInstanceAs (Decidable (_ ∧ _))

/-- The frontier after the buffered span was published. -/
def advanced (v : View) : Option ℤ :=
  match v.span with
  | none => v.next
  | some sp => some (if Bridges (v.next.getD sp.start) sp then sp.next else v.next.getD sp.start)

/-- The offset that the publish of the buffered span commits. -/
def Commits (v : View) (c : ℤ) : Prop := ∃ sp, v.span = some sp ∧ Bridges (v.next.getD sp.start) sp ∧ c = sp.next

/-- The gate after a failed publish. -/
def sentBack (v : View) : SeekGateState :=
  match v.gate, v.next with
  | .active, some d => .needsSeek d
  | g, _ => g

/-- A predicate on views that every move of Kafka and of the loop keeps, apart
from the activation pass; a publish may fail only on views that satisfy `F`. -/
structure Closed (O F : View → Prop) : Prop where
  tracked : ∀ {v}, O v → ∀ sp, v.span = some sp → v.next ≠ none
  position : ∀ {v}, O v → ∀ x, v.position = some x → x ≤ v.log.high
  append : ∀ {v}, O v → ∀ gap, O { v with log := v.log.append gap }
  expire : ∀ {v}, O v → ∀ low, O { v with log := v.log.expire low }
  reposition : ∀ {v : View} {position : Option ℤ} {touched : Prop}, O v →
    (∀ x, position = some x → x ≤ v.log.high) → (v.touched → touched) →
    (v.next ≠ none → v.gate = .active → touched ∨ ∀ x, position = some x → v.position = some x) →
    O { v with position := position, touched := touched }
  settle : ∀ {v : View} {evidence : Option PartitionResume} {settled : ℤ → Prop}, O v →
    (v.evidence ≠ none → evidence ≠ none) → (∀ r, v.settled r → settled r) →
    O { v with evidence := evidence, settled := settled }
  fresh : ∀ {v : View} {gate : SeekGateState} {touched : Prop}, O v → v.next = none → v.armed = false →
    O { v with gate := gate, touched := touched }
  drain : ∀ {v : View} {gate : SeekGateState} {touched : Prop}, O v →
    (∃ f, v.safeFloor = some f ∧ gate = .needsRestore f) ∨ gate = .needsTarget ∧ v.next = none ∨
      gate = v.gate ∧ (v.touched → v.next = none) →
    O { v with gate := gate, touched := touched }
  publish : ∀ {v : View} {settled held : ℤ → Prop}, O v → (∀ r, v.settled r ∨ v.held r → settled r) →
    O { v with span := none, settled := settled, held := held }
  commit : ∀ {v : View} {settled held : ℤ → Prop}, O v → (∀ r, v.settled r ∨ v.held r → settled r) →
    O { v with
      span := none, settled := settled, held := held, next := v.advanced
      committed := fun c => v.committed c ∨ v.Commits c }
  fail : ∀ {v : View} {held : ℤ → Prop}, O v → F v → O { v with span := none, held := held, gate := v.sentBack }
  consume : ∀ {v : View} {x o : ℤ} {settled held : ℤ → Prop}, O v → v.gate = .active → ¬ v.touched →
    v.position = some x → v.log.nextFrom x = some o → (∀ r, v.settled r → settled r) → (∀ r, v.held r → held r) →
    settled o ∨ held o →
    O { v with
      position := some (o + 1), span := some (extended v.span o), next := some (v.next.getD o)
      first := some (v.first.getD o), settled := settled, held := held }

theorem advanced_cases (v : View) :
    (v.advanced = v.next ∧ v.span = none) ∨ (∃ sp d, v.span = some sp ∧ v.advanced = some d ∧ d = v.next.getD sp.start) ∨
      ∃ sp, v.span = some sp ∧ v.advanced = some sp.next ∧ v.Commits sp.next := by
  unfold advanced
  cases hs : v.span with
  | none => exact .inl ⟨rfl, rfl⟩
  | some sp =>
    right
    dsimp only
    split_ifs with hb
    · exact .inr ⟨sp, rfl, rfl, sp, hs, hb, rfl⟩
    · exact .inl ⟨sp, _, rfl, rfl, rfl⟩

/-- What a published span commits is settled. -/
theorem Ok.commits_done {c : ℤ} (h : v.Ok) (hs : ∀ r, v.settled r ∨ v.held r → settled r)
    (hc : v.Commits c) :
    c ≤ v.log.high ∧ View.Done { v with span := none, settled := settled, held := held } c := by
  obtain ⟨sp, hsp, hb, rfl⟩ := hc
  obtain ⟨d, hd⟩ := Option.ne_none_iff_exists'.1 (h.tracked sp hsp)
  rw [hd, Option.getD_some] at hb
  have hbuf := h.buffered sp hsp
  refine ⟨hbuf.1, fun r hr hf hlt => ?_⟩
  by_cases hrd : r < d
  · exact hs r (.inl ((h.durable d hd).2 r hr hf hrd))
  · exact hs r (hbuf.2 r hr hf (hb.1.trans (not_lt.1 hrd)) hlt)

theorem Ok.closed : Closed Ok fun _ => True where
  tracked := fun h => h.tracked
  position := fun h => h.position
  append := fun h => h.append
  expire := fun h => h.expire
  reposition := by
    intro v position touched h hp ht hm
    refine h.reposition hp ht fun hs => ?_
    obtain ⟨sp, hsp⟩ := Option.ne_none_iff_exists'.1 hs
    exact hm (h.tracked sp hsp)
  settle := fun h => h.settle
  fresh := fun h => h.fresh
  drain := by
    intro v gate touched h hg
    refine h.drain ?_
    rcases hg with ⟨f, hf, rfl⟩ | hg | ⟨hg, ht⟩
    · refine .inl ⟨f, rfl, fun sp hsp => ?_⟩
      obtain ⟨d, hd⟩ := Option.ne_none_iff_exists'.1 (h.tracked sp hsp)
      simp only [safeFloor, hsp, extendFloor, hd, Option.some.injEq] at hf
      have hdur := h.durable d hd
      have hbuf := h.buffered sp hsp
      -- Above the span the floor is the durable frontier.
      refine ⟨by omega, fun r hr hfrom hge hlt => .inl (hdur.2 r hr hfrom (by omega))⟩
    · exact .inr (.inl hg)
    · refine .inr (.inr ⟨hg, fun htouched => ?_⟩)
      by_contra hs
      obtain ⟨sp, hsp⟩ := Option.ne_none_iff_exists'.1 hs
      exact h.tracked sp hsp (ht htouched)
  publish := fun h hs => h.roll fun r hr => hs r (.inl hr)
  commit := by
    intro v settled held h hs
    have hroll : View.Ok { v with span := none, settled := settled, held := held } := h.roll fun r hr => hs r (.inl hr)
    refine hroll.advance rfl ?_ ?_ ?_
    · rcases v.advanced_cases with ⟨ha, -⟩ | ⟨sp, d, hsp, ha, -⟩ | ⟨sp, hsp, ha, -⟩
      · rw [ha]
      · simp [ha, h.tracked sp hsp]
      · simp [ha, h.tracked sp hsp]
    · intro d hd
      rcases v.advanced_cases with ⟨ha, -⟩ | ⟨sp, d', hsp, ha, hd'⟩ | ⟨sp, hsp, ha, hc⟩
      · exact hroll.durable d (ha ▸ hd)
      · obtain ⟨n, hn⟩ := Option.ne_none_iff_exists'.1 (h.tracked sp hsp)
        rw [ha, hd', hn, Option.getD_some] at hd
        exact hroll.durable d (hn.trans hd)
      · rw [ha] at hd
        cases hd
        exact h.commits_done hs hc
    · rintro c (hc | hc)
      · exact hroll.commits c hc
      · exact h.commits_done hs hc
  fail := by
    intro v held h _
    have hroll : View.Ok { v with span := none, held := held } := h.roll fun _ hr => hr
    unfold sentBack
    split
    · exact hroll.seek nofun hroll.recreating
    · exact hroll
  consume := fun h => h.consume

/-! ## Predicates a pass keeps -/

/-- What an activation pass needs of a predicate on views; `R v x` says that
the partition may be let through at `x`. -/
structure Passes (O : View → Prop) (R : View → ℤ → Prop) : Prop where
  target : ∀ {v t}, O v → v.gate = .needsSeek t ∨ v.gate = .needsRestore t → R v t
  unresolved : ∀ {v}, O v → v.gate = .needsTarget → v.next = none ∧ v.span = none ∧ ∀ x, R v x
  recreating : ∀ {v}, O v → v.armed = true → v.next = none ∧ v.evidence ≠ none
  regate : ∀ {v x} gate armed, R v x → R { v with gate := gate, armed := armed } x
  seek : ∀ {v : View} {t : ℤ} {armed : Bool}, O v → R v t → (armed = true → v.next = none ∧ v.evidence ≠ none) →
    O { v with gate := .needsSeek t, armed := armed }
  landed : ∀ {v : View} {t : ℤ} {rebase : Bool}, O v → (rebase = false → v.gate = .needsSeek t) → t ≤ v.log.high →
    (rebase = true ∨ v.armed = true → v.Done t) → O (v.landed t rebase) ∧ R (v.landed t rebase) t
  activate : ∀ {v}, O v → (∀ x, v.position = some x → R v x) → O { v with gate := .active, armed := false }

/-- Nothing is left behind between the buffered span and `x`. -/
def Meets (v : View) (x : ℤ) : Prop := ∀ sp, v.span = some sp → x ≤ v.log.high ∧ v.KeptTo sp.next x

theorem Meets.mono {x y : ℤ} (h : v.Meets x) (hy : y ≤ x) : v.Meets y := fun sp hsp =>
  ⟨hy.trans (h sp hsp).1, (h sp hsp).2.mono hy⟩

theorem Ok.passes : Passes Ok Meets where
  target := by
    intro v t h hg sp hsp
    have hgo := h.gated sp hsp
    rcases hg with hg | hg <;> rwa [GateOk, hg] at hgo
  unresolved := by
    intro v h hg
    have hn := h.unresolved hg
    have hs : v.span = none := by
      by_contra hs
      obtain ⟨sp, hsp⟩ := Option.ne_none_iff_exists'.1 hs
      exact h.tracked sp hsp hn
    refine ⟨hn, hs, fun x sp hsp => ?_⟩
    rw [hs] at hsp
    cases hsp
  recreating := fun h => h.recreating
  regate := fun _ _ h => h
  seek := fun h hr => h.seek hr
  landed := by
    intro v t rebase h hg ht hd
    have hok := h.landed hg ht hd
    refine ⟨hok, fun sp hsp => ⟨ht, ?_⟩⟩
    cases rebase with
    | true => cases hsp
    | false =>
      have hgo := hok.gated sp hsp
      rw [GateOk, show (v.landed t false).gate = .needsSeek t from hg rfl] at hgo
      exact hgo.2
  activate := fun h hp => h.activate fun sp x hsp hx => (hp x hx sp hsp).2

end View

end FerroDruid.Kafka
