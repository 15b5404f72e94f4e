import Mathlib.Order.ConditionallyCompleteLattice.Basic
import FerroDruid.Lib.Run
import FerroDruid.Cluster.Manager
import Mathlib.Order.CompletePartialOrder
import Mathlib.Data.Int.ConditionallyCompleteOrder
/-!
# The task-lock table

Runs of commands against one `ClusterManager`, with the locks it granted and
that were not released since kept beside it. `LocksOk` is what the table is
for: no granted lock is lost, every lock covers a real interval, and two
locks on one data source never cover a common instant.

The conflict loop only looks at a request's bounds when another lock of the
data source is in the table, and `insert` replaces whatever lock the task
already holds. `locks_ok_iff` says that these two cases are all that can go
wrong.
-/

namespace FerroDruid.Cluster

open FerroDruid.Lib List

variable (chrono : Chrono)

/-- A manager and the locks it granted that their task has not released. -/
structure LockState where
  manager : ClusterManager
  held : List TaskLock

def lockStep (s : LockState) (i : ApplyEnv × ClusterCommand) : LockState where
  manager := (apply chrono i.1 s.manager i.2).2
  held := match i.2, (apply chrono i.1 s.manager i.2).1 with
    | .AcquireTaskLock t d a b, .ok (.LockAcquired _) => requested i.1 t d a b :: s.held
    | .ReleaseTaskLock t, _ => s.held.filter (fun l => l.task_id ≠ t)
    | _, _ => s.held

/-- Both bounds parse, and the interval is not empty. -/
def WellFormed (interval_start interval_end : String) : Prop :=
  ∃ a b, parseIntervalBound chrono interval_start = some a ∧ parseIntervalBound chrono interval_end = some b ∧ a < b

/-- The instants a lock covers. -/
def covered (l : TaskLock) : Set DateTime :=
  {t | ∃ a b, parseIntervalBound chrono l.interval_start = some a ∧
    parseIntervalBound chrono l.interval_end = some b ∧ t ∈ Set.Ico a b}

/-- What the lock table promises. -/
structure LocksOk (s : LockState) : Prop where
  kept : ∀ l ∈ s.held, l ∈ s.manager.task_locks.values
  bounds : ∀ l ∈ s.manager.task_locks.values, WellFormed chrono l.interval_start l.interval_end
  disjoint : ∀ k k' l l', s.manager.task_locks.lookup k = some l → s.manager.task_locks.lookup k' = some l' →
    k ≠ k' → l.data_source = l'.data_source → Disjoint (covered chrono l) (covered chrono l')

/-- An acquisition that no lock in the table stands against has a real
interval and comes from a task that holds no lock. -/
def Sound (s : LockState) (i : ApplyEnv × ClusterCommand) : Prop :=
  match i.2 with
  | .AcquireTaskLock t d a b =>
    (∀ l ∈ s.manager.task_locks.values, conflicts chrono d a b l = false) →
      WellFormed chrono a b ∧ t ∉ s.manager.task_locks
  | _ => True

/-! ## What a command does to the table -/

/-- What a step does to the table and to the held locks, in four cases. -/
theorem lockStep_cases (s : LockState) (i : ApplyEnv × ClusterCommand) :
    -- Not a lock command, or a denied request: nothing.
    ((lockStep chrono s i).manager.task_locks = s.manager.task_locks ∧ (lockStep chrono s i).held = s.held ∧
      Sound chrono s i) ∨
    -- A granted request.
    (∃ t d a b, i.2 = .AcquireTaskLock t d a b ∧
      (∀ l ∈ s.manager.task_locks.values, conflicts chrono d a b l = false) ∧
      (lockStep chrono s i).manager.task_locks = AList.insert t (requested i.1 t d a b) s.manager.task_locks ∧
      (lockStep chrono s i).held = requested i.1 t d a b :: s.held) ∨
    -- A release.
    (∃ t, i.2 = .ReleaseTaskLock t ∧ (lockStep chrono s i).held = s.held.filter (fun l => l.task_id ≠ t) ∧
      ∀ k, (lockStep chrono s i).manager.task_locks.lookup k = if k = t then none else s.manager.task_locks.lookup k) := by
  obtain ⟨env, c⟩ := i
  cases c with
  | AcquireTaskLock t d a b =>
    by_cases h : ∀ l ∈ s.manager.task_locks.values, conflicts chrono d a b l = false
    · refine .inr (.inl ⟨t, d, a, b, rfl, h, ?_⟩)
      simp only [lockStep, acquire_granted chrono h, and_self]
    · left
      simp only [not_forall, Bool.not_eq_false, exists_prop] at h
      obtain ⟨l, hl, hc, hr⟩ := acquire_denied chrono env s.manager t d a b h
      refine ⟨by simp only [lockStep, hr], by simp only [lockStep, hr, denial], fun hno => ?_⟩
      rw [hno l hl] at hc
      cases hc
  | ReleaseTaskLock t => exact .inr (.inr ⟨t, rfl, rfl, release_task_locks chrono env s.manager t⟩)
  | _ => exact .inl ⟨apply_task_locks chrono env s.manager _ (by simp) (by simp), rfl, trivial⟩

/-! ## Overlap of intervals -/

/-- A request always stands against itself, also with unparseable bounds. -/
theorem intervalsOverlap_self (a b : String) : intervalsOverlap chrono a b a b = true := by
  unfold intervalsOverlap
  split
  · next a1 b1 a2 b2 h1 h2 h3 h4 =>
    rw [h1] at h3; rw [h2] at h4
    cases h3; cases h4
    split
    · rfl
    · next h =>
      simpa using h
  · rfl

theorem disjoint_of_not_conflicts {d a b : String} {l : TaskLock} (l' : TaskLock) (hd : l.data_source = d)
    (ha : l'.interval_start = a) (hb : l'.interval_end = b) (hc : conflicts chrono d a b l = false) :
    Disjoint (covered chrono l) (covered chrono l') := by
  rw [Set.disjoint_left]
  rintro x ⟨p, q, hp, hq, hx⟩ ⟨u, v, hu, hv, hy⟩
  subst hd ha hb
  simp only [conflicts, decide_true, Bool.true_and, intervalsOverlap, hp, hq, hu, hv] at hc
  split at hc
  · cases hc
  · simp only [decide_eq_false_iff_not, not_and, not_lt] at hc
    have := hc (lt_of_le_of_lt hx.1 hy.2)
    exact absurd (lt_of_lt_of_le hx.2 this) (not_lt.2 hy.1)

/-! ## Runs -/

/-- A lock stands under its own task, and is held. -/
def Keyed (s : LockState) : Prop :=
  ∀ k l, s.manager.task_locks.lookup k = some l → l.task_id = k ∧ l ∈ s.held

variable {s : LockState}

theorem keyed_step (i : ApplyEnv × ClusterCommand) (h : Keyed s) : Keyed (lockStep chrono s i) := by
  intro k l hl
  rcases lockStep_cases chrono s i with ⟨ht, hh, -⟩ | ⟨t, d, a, b, -, -, ht, hh⟩ | ⟨t, -, hh, ht⟩
  · rw [ht] at hl; rw [hh]; exact h k l hl
  · rw [ht] at hl; rw [hh]
    by_cases hk : k = t
    · subst hk
      rw [AList.lookup_insert] at hl
      cases hl
      exact ⟨rfl, mem_cons_self⟩
    · rw [AList.lookup_insert_ne hk] at hl
      exact ⟨(h k l hl).1, mem_cons_of_mem _ (h k l hl).2⟩
  · rw [ht] at hl; rw [hh]
    split at hl
    · cases hl
    · next hk =>
      obtain ⟨h1, h2⟩ := h k l hl
      exact ⟨h1, mem_filter.2 ⟨h2, by simpa [h1] using hk⟩⟩

theorem keyed_run (is : List (ApplyEnv × ClusterCommand)) (h : Keyed s) :
    Keyed (is.foldl (lockStep chrono) s) := by
  induction is generalizing s with
  | nil => exact h
  | cons i is ih => exact ih (keyed_step chrono i h)

/-- A sound step keeps what the table promises. -/
theorem locksOk_step {i : ApplyEnv × ClusterCommand} (hs : Sound chrono s i) (hk : Keyed s)
    (h : LocksOk chrono s) : LocksOk chrono (lockStep chrono s i) := by
  rcases lockStep_cases chrono s i with ⟨ht, hh, -⟩ | ⟨t, d, a, b, hi, hno, ht, hh⟩ | ⟨t, -, hh, ht⟩
  · exact ⟨by rw [hh, ht]; exact h.kept, by rw [ht]; exact h.bounds, by rw [ht]; exact h.disjoint⟩
  · -- Granted: the task had no lock, so the table only grows.
    simp only [Sound, hi] at hs
    obtain ⟨hwf, hfresh⟩ := hs hno
    have old : ∀ k l, k ≠ t → (AList.insert t (requested i.1 t d a b) s.manager.task_locks).lookup k = some l →
        s.manager.task_locks.lookup k = some l := fun k l hkt hl => by rwa [AList.lookup_insert_ne hkt] at hl
    refine ⟨?_, ?_, ?_⟩
    · rw [hh, ht]
      intro l hl
      rw [HashMap.mem_values]
      rcases mem_cons.1 hl with rfl | hl
      · exact ⟨t, AList.lookup_insert _⟩
      · obtain ⟨k, hkl⟩ := HashMap.mem_values.1 (h.kept l hl)
        have hkt : k ≠ t := fun e => hfresh (AList.lookup_isSome.1 (by rw [← e, hkl]; rfl))
        exact ⟨k, by rw [AList.lookup_insert_ne hkt, hkl]⟩
    · rw [ht]
      intro l hl
      obtain ⟨k, hkl⟩ := HashMap.mem_values.1 hl
      by_cases hkt : k = t
      · subst hkt
        rw [AList.lookup_insert] at hkl
        cases hkl
        exact hwf
      · exact h.bounds l (HashMap.mem_values.2 ⟨k, old k l hkt hkl⟩)
    · rw [ht]
      intro k k' l l' hl hl' hne hd
      by_cases hkt : k = t
      · subst hkt
        rw [AList.lookup_insert] at hl
        cases hl
        have hl'' := old k' l' (Ne.symm hne) hl'
        have hno' := hno l' (HashMap.mem_values.2 ⟨k', hl''⟩)
        exact (disjoint_of_not_conflicts chrono (requested i.1 k d a b) hd.symm rfl rfl hno').symm
      · have hl0 := old k l hkt hl
        by_cases hkt' : k' = t
        · subst hkt'
          rw [AList.lookup_insert] at hl'
          cases hl'
          exact disjoint_of_not_conflicts chrono (requested i.1 k' d a b) hd rfl rfl (hno l (HashMap.mem_values.2 ⟨k, hl0⟩))
        · exact h.disjoint k k' l l' hl0 (old k' l' hkt' hl') hne hd
  · -- Released: the task's lock leaves the table and the held locks together.
    have sub : ∀ k l, (lockStep chrono s i).manager.task_locks.lookup k = some l →
        s.manager.task_locks.lookup k = some l := by
      intro k l hl
      rw [ht] at hl
      split at hl
      · cases hl
      · exact hl
    refine ⟨?_, ?_, fun k k' l l' hl hl' => h.disjoint k k' l l' (sub k l hl) (sub k' l' hl')⟩
    · rw [hh]
      intro l hl
      obtain ⟨hl, hne⟩ := mem_filter.1 hl
      obtain ⟨k, hkl⟩ := HashMap.mem_values.1 (h.kept l hl)
      have hkt : k ≠ t := by rw [← (hk k l hkl).1]; simpa using hne
      exact HashMap.mem_values.2 ⟨k, by rw [ht, if_neg hkt, hkl]⟩
    · intro l hl
      obtain ⟨k, hkl⟩ := HashMap.mem_values.1 hl
      exact h.bounds l (HashMap.mem_values.2 ⟨k, sub k l hkl⟩)

/-- A step that keeps the promise was sound: granting a lock with unusable
bounds, or to a task that already holds one, breaks it at once. -/
theorem sound_of_locksOk {i : ApplyEnv × ClusterCommand} (hk : Keyed s)
    (h : LocksOk chrono (lockStep chrono s i)) : Sound chrono s i := by
  rcases lockStep_cases chrono s i with ⟨-, -, hs⟩ | ⟨t, d, a, b, hi, hno, ht, hh⟩ | ⟨t, hi, -⟩
  · exact hs
  · simp only [Sound, hi]
    refine fun _ => ⟨?_, fun hmem => ?_⟩
    · exact h.bounds _ (HashMap.mem_values.2 ⟨t, by rw [ht]; exact AList.lookup_insert _⟩)
    · -- The lock the task held is gone: only the new one stands under its key.
      obtain ⟨l, hl⟩ := Option.isSome_iff_exists.1 (AList.lookup_isSome.2 hmem)
      obtain ⟨htask, hheld⟩ := hk t l hl
      have hin := h.kept l (by rw [hh]; exact mem_cons_of_mem _ hheld)
      obtain ⟨k, hkl⟩ := HashMap.mem_values.1 hin
      have hkt : k = t := by
        rw [← htask]
        exact ((keyed_step chrono i hk) k l hkl).1.symm
      rw [hkt, ht, AList.lookup_insert] at hkl
      cases hkl
      have hc := hno _ (HashMap.mem_values.2 ⟨t, hl⟩)
      rw [conflicts] at hc
      simp only [requested, decide_true, Bool.true_and, intervalsOverlap_self] at hc
      cases hc
  · simp only [Sound, hi]

/-- From an empty table, the promise holds after every prefix of a run exactly
when every acquisition that meets no conflict has a real interval and comes
from a task without a lock. -/
theorem locks_ok_iff (m : ClusterManager) (hm : m.task_locks = ∅) (is : List (ApplyEnv × ClusterCommand)) :
    (∀ js, js <+: is → LocksOk chrono (js.foldl (lockStep chrono) ⟨m, []⟩)) ↔
      Guarded (lockStep chrono) (Sound chrono) ⟨m, []⟩ is := by
  have hk0 : Keyed ⟨m, []⟩ := by
    intro k l hl
    rw [hm, AList.lookup_empty] at hl
    cases hl
  have h0 : LocksOk chrono ⟨m, []⟩ := by
    refine ⟨by simp, ?_, ?_⟩
    · intro l hl
      rw [hm] at hl
      simp [HashMap.values] at hl
    · intro k k' l l' hl
      rw [hm, AList.lookup_empty] at hl
      cases hl
  constructor
  · intro h
    refine guarded_of_along (fun s => LocksOk chrono s ∧ Keyed s)
      (fun s i hs hs' => sound_of_locksOk chrono hs.2 hs'.1) fun js hjs => ⟨h js hjs, keyed_run chrono js hk0⟩
  · intro h js hjs
    exact ((h.shorten hjs).inv (fun s => LocksOk chrono s ∧ Keyed s)
      (fun s i hs hi => ⟨locksOk_step chrono hs hi.2 hi.1, keyed_step chrono i hi.2⟩) ⟨h0, hk0⟩).1

/-- A parser that knows the first days of January 2026, in seconds. -/
def januaryDates : Chrono where
  parse_from_rfc3339 _ := none
  parse_date s :=
    if s = "2026-01-01" then some 1767225600 else if s = "2026-01-02" then some 1767312000
    else if s = "2026-01-03" then some 1767398400 else if s = "2026-01-04" then some 1767484800 else none

def plainEnv (uuid : String) : ApplyEnv := { utc_now := 0, uuid, order := id, order_perm := fun _ => .refl _ }

def oneNode : ClusterManager := newSingleNode { id := "n1", host := "h1", port := 8888, role := .AllInOne }

/-- Two tasks, a denied third and a release. -/
def twoTasks : List (ApplyEnv × ClusterCommand) :=
  [(plainEnv "u1", .AcquireTaskLock "t1" "wiki" "2026-01-01" "2026-01-02"),
    (plainEnv "u2", .AcquireTaskLock "t2" "wiki" "2026-01-02" "2026-01-04"),
    (plainEnv "u3", .AcquireTaskLock "t3" "wiki" "soon" "later"), (plainEnv "u4", .ReleaseTaskLock "t1")]

theorem locks_ok_two_tasks :
    oneNode.task_locks = ∅ ∧ LocksOk januaryDates (twoTasks.foldl (lockStep januaryDates) ⟨oneNode, []⟩) := by
  refine ⟨rfl, (locks_ok_iff januaryDates oneNode rfl twoTasks).2
    ⟨fun _ => ⟨?_, by decide⟩, fun _ => ⟨?_, by decide⟩, fun h => ?_, trivial, trivial⟩ twoTasks (prefix_refl _)⟩
  · exact ⟨1767225600, 1767312000, by decide, by decide, by decide⟩
  · exact ⟨1767312000, 1767484800, by decide, by decide, by decide⟩
  · exact absurd h (by decide)

/-- The table grants a lock whose bounds do not parse when it is empty, and a
second grant to one task drops the first. -/
theorem locks_not_ok :
    ¬ LocksOk januaryDates ([(plainEnv "u1", ClusterCommand.AcquireTaskLock "t1" "wiki" "soon" "later")].foldl
        (lockStep januaryDates) ⟨oneNode, []⟩) ∧
    ¬ LocksOk januaryDates ([(plainEnv "u1", ClusterCommand.AcquireTaskLock "t1" "wiki" "2026-01-01" "2026-01-02"),
        (plainEnv "u2", .AcquireTaskLock "t1" "wiki" "2026-01-03" "2026-01-04")].foldl
        (lockStep januaryDates) ⟨oneNode, []⟩) := by
  constructor
  · intro h
    obtain ⟨a, b, ha, -⟩ := h.bounds (requested (plainEnv "u1") "t1" "wiki" "soon" "later") (by decide)
    exact absurd ha (by simp [parseIntervalBound, januaryDates, requested])
  · intro h
    exact absurd (h.kept (requested (plainEnv "u1") "t1" "wiki" "2026-01-01" "2026-01-02") (by decide)) (by decide)

end FerroDruid.Cluster
