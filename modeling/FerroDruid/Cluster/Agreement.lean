import FerroDruid.Cluster.Locks
/-!
# Agreement of replicas

Two replicas of the state machine apply one command list from equal
snapshots. What `apply` takes from its surroundings may differ on each side
at each command: the clock, the UUID of a granted lock, the order in which the
lock table is iterated. `replicas_agree_iff` says for which lists the replicas
end with equal snapshots and equal answers whatever these are.

A lock that is granted never agrees (its id is drawn locally), so the lists
are those whose acquisitions are all refused, each naming one task; and the
last `ElectLeader` must resolve to the same record on both sides.
-/

namespace FerroDruid.Cluster

open FerroDruid.Lib List

variable (chrono : Chrono)

/-- Everything of a lock but the instant it was granted. -/
def TaskLock.timeless (l : TaskLock) : TaskLock := { l with acquired_at := 0 }

/-- Everything of a queued action but the instant it was queued. -/
def QueuedSegmentAction.timeless (a : QueuedSegmentAction) : QueuedSegmentAction := { a with queued_at := 0 }

/-- The maps of two snapshots are equal up to wall-clock fields. -/
structure ClusterSnapshot.AgreeMaps (s s' : ClusterSnapshot) : Prop where
  services : s.services.SameUpTo id s'.services
  segments : s.segments.SameUpTo id s'.segments
  task_locks : s.task_locks.SameUpTo TaskLock.timeless s'.task_locks
  segment_queue : s.segment_queue.SameUpTo (List.map QueuedSegmentAction.timeless) s'.segment_queue

/-- Two snapshots are equal up to wall-clock fields. -/
structure ClusterSnapshot.Agree (s s' : ClusterSnapshot) : Prop extends s.AgreeMaps s' where
  leader : s.leader = s'.leader

abbrev Answer := Except ClusterError CommandResult

/-- Apply a list in order; the `n`-th command runs in `env n`. -/
def applyAll : List ClusterCommand → (Nat → ApplyEnv) → ClusterManager → List Answer × ClusterManager
  | [], _, m => ([], m)
  | c :: cs, env, m =>
    let (r, m') := apply chrono (env 0) m c
    let (rs, m'') := applyAll cs (fun n => env (n + 1)) m'
    (r :: rs, m'')

/-- Whatever the surroundings of the two replicas, they end with equal
snapshots and give equal answers. -/
def ReplicasAgree (m m' : ClusterManager) (cs : List ClusterCommand) : Prop :=
  ∀ env env', (snapshot (applyAll chrono cs env m).2).Agree (snapshot (applyAll chrono cs env' m').2) ∧
    (applyAll chrono cs env m).1 = (applyAll chrono cs env' m').1

/-- Every acquisition of the list meets a lock that stands against it and was
not released by an earlier command of the list, and all such locks are of one
task. -/
def AllRefused : HashMap String TaskLock → List ClusterCommand → Prop
  | _, [] => True
  | locks, .AcquireTaskLock _ d a b :: cs =>
    ((∃ l ∈ locks.values, conflicts chrono d a b l) ∧
      ∀ l ∈ locks.values, ∀ l' ∈ locks.values, conflicts chrono d a b l → conflicts chrono d a b l' →
        l.task_id = l'.task_id) ∧
    AllRefused locks cs
  | locks, .ReleaseTaskLock t :: cs => AllRefused (locks.erase t) cs
  | locks, _ :: cs => AllRefused locks cs

/-- The node the last `ElectLeader` of the list names. -/
def lastElected : List ClusterCommand → Option NodeId
  | [] => none
  | .ElectLeader _ node_id :: cs => (lastElected cs).orElse fun _ => some node_id
  | _ :: cs => lastElected cs

/-! ## The leader record -/

variable {m m' : ClusterManager}

theorem resolveLeader_congr (hn : m.node_info = m'.node_info) (hp : m.peers = m'.peers)
    (n : NodeId) : resolveLeader m n = resolveLeader m' n := by
  simp only [resolveLeader, hn, hp]

variable (cs : List ClusterCommand)

theorem applyAll_leader (env : Nat → ApplyEnv) (m : ClusterManager) :
    (applyAll chrono cs env m).2.leader = match lastElected cs with
      | some n => some (resolveLeader m n)
      | none => m.leader := by
  induction cs generalizing env m with
  | nil => rfl
  | cons c cs ih =>
    obtain ⟨hn, hp⟩ := apply_identity chrono (env 0) m c
    have hl := apply_leader chrono (env 0) m c
    simp only [applyAll, ih, resolveLeader_congr hn hp, hl]
    cases c with
    | ElectLeader role n => rw [lastElected]; cases lastElected cs <;> rfl
    | _ => rfl

/-! ## One command at both replicas -/

theorem conflicts_timeless (d a b : String) {l l' : TaskLock} (h : l.timeless = l'.timeless) :
    conflicts chrono d a b l = conflicts chrono d a b l' ∧ l.task_id = l'.task_id := by
  simp only [TaskLock.timeless, TaskLock.mk.injEq] at h
  obtain ⟨ht, hd, hs, he, -, -⟩ := h
  exact ⟨by simp only [conflicts, hd, hs, he], ht⟩

theorem map_timeless_filter (segment_id : String) (l : List QueuedSegmentAction) :
    (l.filter (fun a => a.segment_id ≠ segment_id)).map QueuedSegmentAction.timeless =
      (l.map QueuedSegmentAction.timeless).filter (fun a => a.segment_id ≠ segment_id) := by
  rw [filter_map]
  rfl

variable (env : ApplyEnv)

/-- The queue arm answers alike: its caps count entries and no instant. -/
theorem enqueue_agree (env' : ApplyEnv) (sv sg : String) (act : SegmentAction)
    (h : (snapshot m).AgreeMaps (snapshot m')) :
    (enqueueSegmentAction env m sv sg act).1 = (enqueueSegmentAction env' m' sv sg act).1 ∧
      (snapshot (enqueueSegmentAction env m sv sg act).2).AgreeMaps
        (snapshot (enqueueSegmentAction env' m' sv sg act).2) := by
  have hb := h.segment_queue.getD sv []
  simp only [snapshot] at hb
  have hlen : (m.segment_queue.getD sv []).length = (m'.segment_queue.getD sv []).length := by
    simpa using congrArg List.length hb
  have hact : ((m.segment_queue.getD sv []).filter (fun a => a.segment_id ≠ sg)).map QueuedSegmentAction.timeless =
      ((m'.segment_queue.getD sv []).filter (fun a => a.segment_id ≠ sg)).map QueuedSegmentAction.timeless := by
    rw [map_timeless_filter, map_timeless_filter, hb]
  have halen : ((m.segment_queue.getD sv []).filter (fun a => a.segment_id ≠ sg)).length =
      ((m'.segment_queue.getD sv []).filter (fun a => a.segment_id ≠ sg)).length := by
    simpa using congrArg List.length hact
  have hq := h.segment_queue.insert sv hact
  simp only [snapshot] at hq
  have hsum : ((HashMap.values (AList.insert sv
        ((m.segment_queue.getD sv []).filter (fun a => a.segment_id ≠ sg)) m.segment_queue)).map List.length).sum =
      ((HashMap.values (AList.insert sv
        ((m'.segment_queue.getD sv []).filter (fun a => a.segment_id ≠ sg)) m'.segment_queue)).map List.length).sum := by
    simpa only [map_map, Function.comp_def, length_map] using
      (hq.values_perm.map List.length).sum_eq
  have hnew : List.map QueuedSegmentAction.timeless
        ((m.segment_queue.getD sv []).filter (fun a => a.segment_id ≠ sg) ++ [⟨sg, act, env.utc_now⟩]) =
      List.map QueuedSegmentAction.timeless
        ((m'.segment_queue.getD sv []).filter (fun a => a.segment_id ≠ sg) ++ [⟨sg, act, env'.utc_now⟩]) := by
    rw [map_append, map_append, hact]
    rfl
  have hpush := hq.insert sv hnew
  simp only [enqueueSegmentAction, hlen, halen, hsum]
  split_ifs
  · exact ⟨rfl, h.services, h.segments, h.task_locks, hq⟩
  · exact ⟨rfl, h.services, h.segments, h.task_locks, hq⟩
  · exact ⟨rfl, h.services, h.segments, h.task_locks, hpush⟩
  · exact ⟨rfl, h.services, h.segments, h.task_locks, hq⟩
  · exact ⟨rfl, h.services, h.segments, h.task_locks, hpush⟩

/-- Whether an acquisition is refused does not depend on the replica. -/
theorem refused_agree (d a b : String) (h : (snapshot m).AgreeMaps (snapshot m'))
    (hr : ∃ l ∈ m.task_locks.values, conflicts chrono d a b l) :
    ∃ l ∈ m'.task_locks.values, conflicts chrono d a b l := by
  obtain ⟨l, hl, hc⟩ := hr
  obtain ⟨l', hl', ht⟩ := h.task_locks.exists_value hl
  exact ⟨l', hl', by rw [(conflicts_timeless chrono d a b ht).1, hc]⟩

/-- Every command but an acquisition gives equal answers and keeps the maps
equal. -/
theorem apply_agree (env' : ApplyEnv) (c : ClusterCommand)
    (hc : ∀ t d a b, c ≠ .AcquireTaskLock t d a b) (h : (snapshot m).AgreeMaps (snapshot m')) :
    (apply chrono env m c).1 = (apply chrono env' m' c).1 ∧
      (snapshot (apply chrono env m c).2).AgreeMaps (snapshot (apply chrono env' m' c).2) := by
  cases c with
  | AcquireTaskLock t d a b => exact absurd rfl (hc t d a b)
  | ElectLeader role n => exact ⟨rfl, h.services, h.segments, h.task_locks, h.segment_queue⟩
  | RegisterService entry =>
    refine ⟨rfl, h.services.insert _ ?_, h.segments, h.task_locks, h.segment_queue⟩
    have hg := h.services.getD entry.service_type []
    simp only [id, snapshot] at hg ⊢
    rw [hg]
  | DeregisterService n t =>
    have hg := h.services t
    simp only [Option.map_id_fun, id, snapshot] at hg
    simp only [apply, deregisterService, hg]
    split
    · exact ⟨trivial, h.services.insert _ rfl, h.segments, h.task_locks, h.segment_queue⟩
    · exact ⟨trivial, h⟩
  | AnnounceSegment an =>
    refine ⟨rfl, h.services, h.segments.insert _ ?_, h.task_locks, h.segment_queue⟩
    have hg := h.segments.getD an.data_source []
    simp only [id, snapshot] at hg ⊢
    rw [hg]
  | RemoveSegment sg sv =>
    refine ⟨rfl, h.services, fun k => ?_, h.task_locks, h.segment_queue⟩
    have hg := h.segments k
    simp only [Option.map_id_fun, id, snapshot] at hg
    simp only [snapshot, apply, removeSegmentAnnouncement, HashMap.lookup_mapValues, hg]
  | EnqueueSegmentAction sv sg act => exact enqueue_agree env env' sv sg act h
  | ReleaseTaskLock t =>
    have hmem := h.task_locks.mem_iff t
    simp only [snapshot] at hmem
    simp only [apply]
    by_cases ht : t ∈ m.task_locks
    · rw [if_pos ht, if_pos (hmem.1 ht)]
      exact ⟨rfl, h.services, h.segments, h.task_locks.erase t, h.segment_queue⟩
    · rw [if_neg ht, if_neg (fun h' => ht (hmem.2 h'))]
      exact ⟨rfl, h⟩

/-! ## An acquisition at one replica -/

theorem denial_injective {d t t' : String} (h : denial d t = denial d t') : t = t' := by
  simp only [denial, CommandResult.LockDenied.injEq] at h
  have ht := congrArg String.toList h
  simp only [String.toList_append, append_cancel_left_eq, append_cancel_right_eq] at ht
  exact String.toList_injective ht

/-- Surroundings that draw `uuid` and iterate `first` before every other lock. -/
def firstEnv (uuid : String) (first : TaskLock) : ApplyEnv where
  utc_now := 0
  uuid := uuid
  order l := if first ∈ l then first :: l.erase first else l
  order_perm l := by
    split
    · next h => exact (List.perm_cons_erase h).symm
    · exact .refl _

/-- Any lock that stands against the request can be the one the denial names. -/
theorem acquire_names (uuid t d a b : String) {l : TaskLock}
    (hl : l ∈ m.task_locks.values) (hc : conflicts chrono d a b l) :
    (apply chrono (firstEnv uuid l) m (.AcquireTaskLock t d a b)).1 = .ok (denial d l.task_id) := by
  have hf : ((firstEnv uuid l).order m.task_locks.values).find? (conflicts chrono d a b) = some l := by
    simp only [firstEnv, if_pos hl, find?_cons, hc]
  simp only [apply, applyAcquireLock, hf]
  rfl

/-! ## Command lists -/

theorem allRefused_congr {locks locks' : HashMap String TaskLock}
    (h : locks.SameUpTo TaskLock.timeless locks') (hr : AllRefused chrono locks cs) : AllRefused chrono locks' cs := by
  induction cs generalizing locks locks' with
  | nil => trivial
  | cons c cs ih =>
    cases c with
    | AcquireTaskLock t d a b =>
      obtain ⟨⟨⟨l, hl, hc⟩, huniq⟩, hrest⟩ := hr
      refine ⟨⟨?_, ?_⟩, ih h hrest⟩
      · obtain ⟨l', hl', ht⟩ := h.exists_value hl
        exact ⟨l', hl', by rw [(conflicts_timeless chrono d a b ht).1, hc]⟩
      · intro l hl l' hl' hc hc'
        obtain ⟨k, hk, ht⟩ := h.symm.exists_value hl
        obtain ⟨k', hk', ht'⟩ := h.symm.exists_value hl'
        obtain ⟨e, et⟩ := conflicts_timeless chrono d a b ht
        obtain ⟨e', et'⟩ := conflicts_timeless chrono d a b ht'
        rw [← et, ← et']
        exact huniq k hk k' hk' (e ▸ hc) (e' ▸ hc')
    | ReleaseTaskLock t => exact ih (h.erase t) hr
    | _ => exact ih h hr

theorem release_table (m : ClusterManager) (t : String) :
    HashMap.SameUpTo TaskLock.timeless (m.task_locks.erase t)
      (apply chrono env m (.ReleaseTaskLock t)).2.task_locks := by
  intro k
  rw [release_task_locks]
  split
  · next hk => subst hk; rw [AList.lookup_erase]
  · next hk => rw [AList.lookup_erase_ne hk]

/-- When every acquisition is refused, the replicas keep equal maps and give
equal answers. -/
theorem agree_of_allRefused (env env' : Nat → ApplyEnv)
    (h : (snapshot m).AgreeMaps (snapshot m')) (hr : AllRefused chrono m.task_locks cs) :
    (snapshot (applyAll chrono cs env m).2).AgreeMaps (snapshot (applyAll chrono cs env' m').2) ∧
      (applyAll chrono cs env m).1 = (applyAll chrono cs env' m').1 := by
  induction cs generalizing m m' env env' with
  | nil => exact ⟨h, rfl⟩
  | cons c cs ih =>
    by_cases hc : ∃ t d a b, c = .AcquireTaskLock t d a b
    · -- Refused on both sides, by locks of one task.
      obtain ⟨t, d, a, b, rfl⟩ := hc
      obtain ⟨⟨hex, huniq⟩, hrest⟩ := hr
      obtain ⟨l, hl, hlc, hm⟩ := acquire_denied chrono (env 0) m t d a b hex
      obtain ⟨l', hl', hlc', hm'⟩ := acquire_denied chrono (env' 0) m' t d a b (refused_agree chrono d a b h hex)
      obtain ⟨k, hk, ht⟩ := h.task_locks.symm.exists_value hl'
      obtain ⟨hkc, hkt⟩ := conflicts_timeless chrono d a b ht
      have htask : l.task_id = l'.task_id := by
        rw [← hkt]
        exact huniq l hl k hk hlc (by rw [hkc, hlc'])
      obtain ⟨h1, h2⟩ := ih (fun n => env (n + 1)) (fun n => env' (n + 1)) h hrest
      simp only [applyAll, hm, hm', htask, h2]
      exact ⟨h1, trivial⟩
    · simp only [not_exists] at hc
      obtain ⟨hres, hmaps⟩ := apply_agree chrono (env 0) (env' 0) c hc h
      have hrest : AllRefused chrono (apply chrono (env 0) m c).2.task_locks cs := by
        by_cases hrel : ∃ t, c = .ReleaseTaskLock t
        · obtain ⟨t, rfl⟩ := hrel
          exact allRefused_congr chrono cs (release_table chrono (env 0) m t) hr
        · simp only [not_exists] at hrel
          rw [apply_task_locks chrono (env 0) m c hc hrel]
          cases c with
          | AcquireTaskLock t d a b => exact absurd rfl (hc t d a b)
          | ReleaseTaskLock t => exact absurd rfl (hrel t)
          | _ => exact hr
      obtain ⟨h1, h2⟩ := ih (fun n => env (n + 1)) (fun n => env' (n + 1)) hmaps hrest
      simp only [applyAll, hres, h2]
      exact ⟨h1, trivial⟩

/-- Put one environment in front of a sequence. -/
def envCons (e : ApplyEnv) (env : Nat → ApplyEnv) : Nat → ApplyEnv
  | 0 => e
  | n + 1 => env n

/-- Equal answers in all surroundings: what the first command gives, and what
is left for the others. -/
theorem answers_cons {c : ClusterCommand} {cs : List ClusterCommand}
    (h : ∀ env env', (applyAll chrono (c :: cs) env m).1 = (applyAll chrono (c :: cs) env' m').1) :
    (∀ e e', (apply chrono e m c).1 = (apply chrono e' m' c).1) ∧
      ∀ e e' env env', (applyAll chrono cs env (apply chrono e m c).2).1 =
        (applyAll chrono cs env' (apply chrono e' m' c).2).1 := by
  refine ⟨fun e e' => ?_, fun e e' env env' => ?_⟩
  · have := h (envCons e fun _ => e) (envCons e' fun _ => e')
    simp only [applyAll, envCons, List.cons.injEq] at this
    exact this.1
  · have := h (envCons e env) (envCons e' env')
    simp only [applyAll, envCons, List.cons.injEq] at this
    exact this.2

/-- Equal answers to an acquisition in all surroundings: it was refused, and
by locks of one task. -/
theorem refused_of_answers {t d a b : String} (h : (snapshot m).AgreeMaps (snapshot m'))
    (heq : ∀ e e', (apply chrono e m (.AcquireTaskLock t d a b)).1 =
      (apply chrono e' m' (.AcquireTaskLock t d a b)).1) :
    (∃ l ∈ m.task_locks.values, conflicts chrono d a b l) ∧
      ∀ l ∈ m.task_locks.values, ∀ l' ∈ m.task_locks.values, conflicts chrono d a b l → conflicts chrono d a b l' →
        l.task_id = l'.task_id := by
  have someLock : TaskLock := ⟨"", "", "", "", 0, ""⟩
  constructor
  · -- A grant shows the locally drawn id.
    by_contra hno
    have free : ∀ l ∈ m.task_locks.values, conflicts chrono d a b l = false := fun l hl => by
      by_contra hc
      exact hno ⟨l, hl, by simpa using hc⟩
    have free' : ∀ l ∈ m'.task_locks.values, conflicts chrono d a b l = false := fun l hl => by
      obtain ⟨k, hk, ht⟩ := h.task_locks.symm.exists_value hl
      rw [← (conflicts_timeless chrono d a b ht).1]
      exact free k hk
    have := heq (firstEnv "a" someLock) (firstEnv "b" someLock)
    rw [acquire_granted chrono free, acquire_granted chrono free'] at this
    simp [firstEnv] at this
  · -- A denial names whichever lock comes first.
    intro l hl l' hl' hc hc'
    obtain ⟨k, hk, ht⟩ := h.task_locks.exists_value hl'
    obtain ⟨hkc, hkt⟩ := conflicts_timeless chrono d a b ht
    have := heq (firstEnv "a" l) (firstEnv "a" k)
    rw [acquire_names chrono "a" t d a b hl hc, acquire_names chrono "a" t d a b hk (by rw [hkc, hc'])] at this
    rw [← hkt]
    exact denial_injective (Except.ok.inj this)

theorem allRefused_of_answers (h : (snapshot m).AgreeMaps (snapshot m'))
    (heq : ∀ env env', (applyAll chrono cs env m).1 = (applyAll chrono cs env' m').1) :
    AllRefused chrono m.task_locks cs := by
  induction cs generalizing m m' with
  | nil => trivial
  | cons c cs ih =>
    obtain ⟨hhead, htail⟩ := answers_cons chrono heq
    have e : ApplyEnv := firstEnv "" ⟨"", "", "", "", 0, ""⟩
    by_cases hc : ∃ t d a b, c = .AcquireTaskLock t d a b
    · obtain ⟨t, d, a, b, rfl⟩ := hc
      have href := refused_of_answers chrono h hhead
      obtain ⟨_, _, _, hm⟩ := acquire_denied chrono e m t d a b href.1
      obtain ⟨_, _, _, hm'⟩ := acquire_denied chrono e m' t d a b (refused_agree chrono d a b h href.1)
      refine ⟨href, ih h fun env env' => ?_⟩
      have := htail e e env env'
      rwa [hm, hm'] at this
    · simp only [not_exists] at hc
      have hrest := ih (apply_agree chrono e e c hc h).2 (htail e e)
      by_cases hrel : ∃ t, c = .ReleaseTaskLock t
      · obtain ⟨t, rfl⟩ := hrel
        exact allRefused_congr chrono cs (release_table chrono e m t).symm hrest
      · simp only [not_exists] at hrel
        rw [apply_task_locks chrono e m c hc hrel] at hrest
        cases c with
        | AcquireTaskLock t d a b => exact absurd rfl (hc t d a b)
        | ReleaseTaskLock t => exact absurd rfl (hrel t)
        | _ => exact hrest

/-- From equal snapshots, two replicas agree on a command list in all
surroundings exactly when each of its acquisitions is refused by the locks of
one task (of those the list has not released by then), and the last leader it
elects resolves to one record on both sides. -/
theorem replicas_agree_iff (m m' : ClusterManager) (h : (snapshot m).Agree (snapshot m')) (cs : List ClusterCommand) :
    ReplicasAgree chrono m m' cs ↔
      AllRefused chrono m.task_locks cs ∧ ∀ n, lastElected cs = some n → resolveLeader m n = resolveLeader m' n := by
  constructor
  · intro hag
    refine ⟨allRefused_of_answers chrono cs h.toAgreeMaps fun env env' => (hag env env').2, fun n hn => ?_⟩
    have e : Nat → ApplyEnv := fun _ => firstEnv "" ⟨"", "", "", "", 0, ""⟩
    have hl := (hag e e).1.leader
    simp only [snapshot, applyAll_leader, hn, Option.some.injEq] at hl
    exact hl
  · rintro ⟨href, hlead⟩ env env'
    obtain ⟨hmaps, hres⟩ := agree_of_allRefused chrono cs env env' h.toAgreeMaps href
    refine ⟨⟨hmaps, ?_⟩, hres⟩
    simp only [snapshot, applyAll_leader]
    cases hn : lastElected cs with
    | none => exact h.leader
    | some n => exact congrArg some (hlead n hn)

/-- The cluster `n1`, `n2`, `h3`, seen from `n1` and from `n2`, in one state:
task `t0` holds a lock. -/
def sharedSnapshot : ClusterSnapshot where
  services := ∅
  segments := ∅
  task_locks := AList.insert "t0" (requested (plainEnv "u0") "t0" "wiki" "2026-01-01" "2026-01-03") ∅
  leader := none
  segment_queue := ∅

def replica1 : ClusterManager :=
  restore (newMultiNode { id := "n1", host := "h1", port := 8888, role := .AllInOne } ["h2:8888", "h3:8888"])
    sharedSnapshot

def replica2 : ClusterManager :=
  restore (newMultiNode { id := "n2", host := "h2", port := 8888, role := .AllInOne } ["h1:8888", "h3:8888"])
    sharedSnapshot

theorem replicas_agree_sample :
    ReplicasAgree januaryDates replica1 replica2
      [.RegisterService ⟨"broker", "h1", 8082, "n1"⟩, .AcquireTaskLock "t1" "wiki" "2026-01-02" "2026-01-04",
        .ReleaseTaskLock "t0", .EnqueueSegmentAction "h3" "seg" .Load, .ElectLeader "overlord" "peer-1"] := by
  refine (replicas_agree_iff januaryDates replica1 replica2 ?_ _).2 ⟨⟨by decide, trivial⟩, fun n hn => ?_⟩
  · exact ⟨⟨.refl _ _, .refl _ _, .refl _ _, .refl _ _⟩, rfl⟩
  · cases hn
    decide

/-- A granted lock and an elected leader each tell the replicas apart. -/
theorem replicas_disagree :
    ¬ ReplicasAgree januaryDates replica1 replica2 [.AcquireTaskLock "t1" "news" "2026-01-02" "2026-01-04"] ∧
      ¬ ReplicasAgree januaryDates replica1 replica2 [.ElectLeader "coordinator" "n1"] := by
  constructor
  · intro h
    exact absurd (h (fun _ => plainEnv "u1") (fun _ => plainEnv "u2")).2 (by decide)
  · intro h
    exact absurd (h (fun _ => plainEnv "u1") (fun _ => plainEnv "u1")).1.leader (by decide)

end FerroDruid.Cluster
