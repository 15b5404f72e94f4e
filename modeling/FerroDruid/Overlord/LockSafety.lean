import FerroDruid.Overlord.TaskLocks
import Mathlib.Data.List.Nodup
/-!
# Lock decisions are safe

A caller of `evaluate_lock_request` keeps a table of locks: it grants when it is told
to, revokes the listed locks first when it is told to preempt, and waits otherwise.
Locks are released at any time.
-/

namespace FerroDruid.Overlord

open Lib List

/-! ## Conflicts -/

/-- The locks are not compatible on their data source. -/
def Conflict (a b : TaskLock) : Prop :=
  a.dataSource = b.dataSource ∧
    (∃ t : Int64, (a.interval.startMillis ≤ t ∧ t < a.interval.stopMillis) ∧ b.interval.startMillis ≤ t ∧ t < b.interval.stopMillis) ∧
    ¬ (a.lockType = .shared ∧ b.lockType = .shared)

theorem Interval.overlaps_iff (a b : Interval) :
    a.overlaps b = true ↔ ∃ t : Int64, (a.startMillis ≤ t ∧ t < a.stopMillis) ∧ b.startMillis ≤ t ∧ t < b.stopMillis := by
  have ha := a.valid
  have hb := b.valid
  simp only [Interval.overlaps, decide_eq_true_eq, Int64.le_iff_toInt_le, Int64.lt_iff_toInt_lt] at ha hb ⊢
  constructor
  · rintro ⟨hab, hba⟩
    rcases le_total a.startMillis.toInt b.startMillis.toInt with h | h
    · exact ⟨b.startMillis, ⟨h, hba⟩, le_rfl, hb⟩
    · exact ⟨a.startMillis, ⟨le_rfl, ha⟩, h, hab⟩
  · rintro ⟨t, ⟨hat, hta⟩, hbt, htb⟩
    exact ⟨hat.trans_lt htb, hbt.trans_lt hta⟩

theorem TaskLock.conflictsWith_iff (a b : TaskLock) : a.conflictsWith b = true ↔ a.revoked = false ∧ b.revoked = false ∧ Conflict a b := by
  have htype : (a.lockType = .exclusive ∨ b.lockType = .exclusive) ↔ ¬ (a.lockType = .shared ∧ b.lockType = .shared) := by
    cases a.lockType <;> cases b.lockType <;> simp
  unfold TaskLock.conflictsWith Conflict
  rw [← Interval.overlaps_iff, ← htype]
  simp only [Bool.and_eq_true, Bool.not_eq_true', decide_eq_true_eq, Bool.or_eq_true, and_assoc]

theorem Conflict.symm {a b : TaskLock} (h : Conflict a b) : Conflict b a := by
  obtain ⟨hsource, ⟨t, ha, hb⟩, htype⟩ := h
  exact ⟨hsource.symm, ⟨t, hb, ha⟩, fun h => htype h.symm⟩

/-! ## The decision -/

/-- A lock of another task that stands in the way of a request. -/
def StandsInWay (request held : TaskLock) : Prop := held.taskId ≠ request.taskId ∧ request.conflictsWith held = true

instance (request held : TaskLock) : Decidable (StandsInWay request held) := inferInstanceAs (Decidable (_ ∧ _))

theorem evaluateLocks_eq (request : TaskLock) (existing : List TaskLock) (toPreempt : List String) :
    evaluateLocks request existing toPreempt =
      if ∃ held ∈ existing, StandsInWay request held ∧ request.priority ≤ held.priority then .blocked
      else
        let ids := toPreempt ++ (existing.filter (StandsInWay request)).map (·.id)
        if ids = [] then .granted else .preempt ids := by
  induction existing generalizing toPreempt with
  | nil => simp [evaluateLocks]
  | cons held rest ih =>
    unfold evaluateLocks
    by_cases h : StandsInWay request held
    · have hgo : ¬ (held.taskId = request.taskId ∨ request.conflictsWith held = false) := by
        rintro (htask | hno)
        · exact h.1 htask
        · simp [h.2] at hno
      rw [if_neg hgo]
      by_cases hpriority : request.priority ≤ held.priority
      · rw [if_pos hpriority, if_pos ⟨held, mem_cons_self, h, hpriority⟩]
      · rw [if_neg hpriority, ih, filter_cons_of_pos (by simpa using h), map_cons]
        simp only [mem_cons, exists_eq_or_imp, hpriority, and_false, false_or, append_assoc, singleton_append]
    · have hgo : held.taskId = request.taskId ∨ request.conflictsWith held = false := by
        by_contra hnot
        rw [not_or, Bool.not_eq_false] at hnot
        exact h hnot
      rw [if_pos hgo, ih, filter_cons_of_neg (by simpa using h)]
      simp only [mem_cons, exists_eq_or_imp, h, false_and, false_or]

variable {request : TaskLock} {existing : List TaskLock}

theorem evaluateLockRequest_blocked_iff :
    evaluateLockRequest request existing = .blocked ↔ ∃ held ∈ existing, StandsInWay request held ∧ request.priority ≤ held.priority := by
  unfold evaluateLockRequest
  rw [evaluateLocks_eq]
  dsimp only
  split_ifs with h h'
  · simp [h]
  · simp [h]
  · simp [h]

theorem evaluateLockRequest_granted (h : evaluateLockRequest request existing = .granted) :
    ∀ held ∈ existing, ¬ StandsInWay request held := by
  unfold evaluateLockRequest at h
  rw [evaluateLocks_eq] at h
  dsimp only at h
  split_ifs at h with hblocked hnone
  simpa using hnone

variable {ids : List String}

theorem evaluateLockRequest_preempt (h : evaluateLockRequest request existing = .preempt ids) :
    ids = (existing.filter (StandsInWay request)).map (·.id) ∧ ∀ held ∈ existing, StandsInWay request held → held.priority < request.priority := by
  unfold evaluateLockRequest at h
  rw [evaluateLocks_eq] at h
  dsimp only at h
  split_ifs at h with hblocked hnone
  refine ⟨(LockDecision.preempt.inj h).symm, fun held hheld hstands => ?_⟩
  by_contra hnot
  exact hblocked ⟨held, hheld, hstands, by rwa [Int64.not_lt] at hnot⟩

/-! ## The caller -/

inductive LockCall where
  /-- The held locks that the caller passes, and the id that the lock is stored under. -/
  | request (request : TaskLock) (existing : List TaskLock) (id : String)
  | release (released : TaskLock → Bool)

def revokeListed (table : List TaskLock) (ids : List String) : List TaskLock :=
  table.map fun lock => if lock.id ∈ ids then { lock with revoked := true } else lock

def lockStep (table : List TaskLock) : LockCall → List TaskLock
  | .request request existing id =>
    match evaluateLockRequest request existing with
    | .granted => table ++ [{ request with id := id }]
    | .preempt ids => revokeListed table ids ++ [{ request with id := id }]
    | .blocked => table
  | .release released => table.filter fun lock => !released lock

/-- The caller passes locks of the table, and none that holds the data source is
missing; the store gives each lock an id of its own. -/
structure Follows (table : List TaskLock) (request : TaskLock) (existing : List TaskLock) (id : String) : Prop where
  held : ∀ lock ∈ existing, lock ∈ table
  complete : ∀ lock ∈ table, lock.dataSource = request.dataSource → lock.revoked = false → lock ∈ existing
  fresh : ∀ lock ∈ table, lock.id ≠ id

def FollowsCall (table : List TaskLock) : LockCall → Prop
  | .request request existing id => Follows table request existing id
  | .release _ => True

/-- No two locks of different tasks that are not revoked conflict. -/
structure Exclusive (table : List TaskLock) : Prop where
  ids : (table.map (·.id)).Nodup
  apart : ∀ a ∈ table, ∀ b ∈ table, a.taskId ≠ b.taskId → a.revoked = false → b.revoked = false → ¬ Conflict a b

variable {table : List TaskLock}

theorem lockStep_granted (h : evaluateLockRequest request existing = .granted) (id : String) :
    lockStep table (.request request existing id) = table ++ [{ request with id := id }] := by
  simp only [lockStep, h]

theorem lockStep_preempt (h : evaluateLockRequest request existing = .preempt ids) (id : String) :
    lockStep table (.request request existing id) = revokeListed table ids ++ [{ request with id := id }] := by
  simp only [lockStep, h]

theorem lockStep_blocked (h : evaluateLockRequest request existing = .blocked) (id : String) :
    lockStep table (.request request existing id) = table := by
  simp only [lockStep, h]

theorem mem_revokeListed {lock : TaskLock} (h : lock ∈ revokeListed table ids) (hlive : lock.revoked = false) :
    lock ∈ table ∧ lock.id ∉ ids := by
  obtain ⟨old, hold, rfl⟩ := mem_map.1 h
  split_ifs at hlive ⊢ with hid
  exact ⟨hold, hid⟩

theorem ids_revokeListed (ids : List String) : (revokeListed table ids).map (·.id) = table.map (·.id) := by
  unfold revokeListed
  rw [map_map]
  refine map_congr_left fun lock _ => ?_
  simp only [Function.comp_apply]
  split_ifs <;> rfl

theorem Exclusive.revoke (h : Exclusive table) (ids : List String) : Exclusive (revokeListed table ids) where
  ids := (ids_revokeListed ids).symm ▸ h.ids
  apart a ha b hb htask hlive hlive' := h.apart a (mem_revokeListed ha hlive).1 b (mem_revokeListed hb hlive').1 htask hlive hlive'

theorem Exclusive.grant (h : Exclusive table) {id : String} (hfresh : ∀ lock ∈ table, lock.id ≠ id)
    (hapart : ∀ held ∈ table, held.taskId ≠ request.taskId → held.revoked = false → request.revoked = false → ¬ Conflict request held) :
    Exclusive (table ++ [{ request with id := id }]) where
  ids := by
    rw [map_append, map_singleton]
    refine nodup_append.2 ⟨h.ids, by simp, fun x hx y hy => ?_⟩
    obtain ⟨lock, hlock, rfl⟩ := mem_map.1 hx
    rw [mem_singleton.1 hy]
    exact hfresh lock hlock
  apart a ha b hb htask hlive hlive' := by
    rcases mem_append.1 ha with ha | ha
    · rcases mem_append.1 hb with hb | hb
      · exact h.apart a ha b hb htask hlive hlive'
      · cases mem_singleton.1 hb
        exact fun hconflict => hapart a ha htask hlive hlive' hconflict.symm
    · cases mem_singleton.1 ha
      rcases mem_append.1 hb with hb | hb
      · exact fun hconflict => hapart b hb htask.symm hlive' hlive hconflict
      · cases mem_singleton.1 hb
        exact absurd rfl htask

/-- What the caller passes has every lock that stands in the way. -/
theorem Follows.mem_existing {held : TaskLock} {id : String} (h : Follows table request existing id)
    (hheld : held ∈ table) (htask : held.taskId ≠ request.taskId) (hlive : held.revoked = false) (hrequest : request.revoked = false)
    (hconflict : Conflict request held) : held ∈ existing ∧ StandsInWay request held :=
  ⟨h.complete held hheld hconflict.1.symm hlive, htask, (TaskLock.conflictsWith_iff request held).2 ⟨hrequest, hlive, hconflict⟩⟩

/-- One call keeps the locks apart. -/
theorem Exclusive.step (h : Exclusive table) {call : LockCall} (hcall : FollowsCall table call) : Exclusive (lockStep table call) := by
  cases call with
  | release released =>
    exact ⟨h.ids.sublist (List.Sublist.map _ filter_sublist),
      fun a ha b hb => h.apart a (mem_of_mem_filter ha) b (mem_of_mem_filter hb)⟩
  | request request existing id =>
    cases hdecision : evaluateLockRequest request existing with
    | blocked =>
      rw [lockStep_blocked hdecision]
      exact h
    | granted =>
      rw [lockStep_granted hdecision]
      refine h.grant hcall.fresh fun held hheld htask hlive hrequest hconflict => ?_
      obtain ⟨hmem, hstands⟩ := hcall.mem_existing hheld htask hlive hrequest hconflict
      exact evaluateLockRequest_granted hdecision held hmem hstands
    | preempt ids =>
      rw [lockStep_preempt hdecision]
      refine (h.revoke ids).grant (fun lock hlock => ?_) fun held hheld htask hlive hrequest hconflict => ?_
      · obtain ⟨old, hold, rfl⟩ := mem_map.1 hlock
        split_ifs
        · exact hcall.fresh old hold
        · exact hcall.fresh old hold
      · obtain ⟨hheld, hid⟩ := mem_revokeListed hheld hlive
        obtain ⟨hmem, hstands⟩ := hcall.mem_existing hheld htask hlive hrequest hconflict
        rw [(evaluateLockRequest_preempt hdecision).1] at hid
        exact hid (mem_map.2 ⟨held, mem_filter.2 ⟨hmem, by simpa using hstands⟩, rfl⟩)

/-- A lock that a call does not leave as it is was released, or a request of a higher
priority that conflicts with it revoked it. -/
theorem Exclusive.changed (h : Exclusive table) {call : LockCall} (hcall : FollowsCall table call) {lock : TaskLock} (hlock : lock ∈ table)
    (hchanged : lock ∉ lockStep table call) :
    (∃ released, call = .release released ∧ released lock = true) ∨
      ∃ request existing id, call = .request request existing id ∧ lock.revoked = false ∧ lock.taskId ≠ request.taskId ∧
        lock.priority < request.priority ∧ Conflict request lock ∧ { lock with revoked := true } ∈ lockStep table call := by
  cases call with
  | release released =>
    refine .inl ⟨released, rfl, ?_⟩
    by_contra hnot
    exact hchanged (mem_filter.2 ⟨hlock, by simp [hnot]⟩)
  | request request existing id =>
    refine .inr ⟨request, existing, id, rfl, ?_⟩
    cases hdecision : evaluateLockRequest request existing with
    | blocked =>
      rw [lockStep_blocked hdecision] at hchanged
      exact absurd hlock hchanged
    | granted =>
      rw [lockStep_granted hdecision] at hchanged
      exact absurd (mem_append_left _ hlock) hchanged
    | preempt ids =>
      rw [lockStep_preempt hdecision] at hchanged ⊢
      have hid : lock.id ∈ ids := by
        by_contra hid
        exact hchanged (mem_append_left _ (mem_map.2 ⟨lock, hlock, if_neg hid⟩))
      obtain ⟨hids, hlower⟩ := evaluateLockRequest_preempt hdecision
      rw [hids] at hid
      obtain ⟨held, hheld, hsame⟩ := mem_map.1 hid
      obtain ⟨hmem, hstands⟩ := mem_filter.1 hheld
      rw [decide_eq_true_eq] at hstands
      -- an id names one lock of the table
      obtain rfl : held = lock := inj_on_of_nodup_map h.ids (hcall.held held hmem) hlock hsame
      obtain ⟨-, hlive, hconflict⟩ := (TaskLock.conflictsWith_iff request held).1 hstands.2
      refine ⟨hlive, hstands.1, hlower held hmem hstands, hconflict, mem_append_left _ (mem_map.2 ⟨held, hlock, if_pos ?_⟩)⟩
      rwa [hids]

/-- In every run no two locks of different tasks that are not revoked conflict, only a
request of a higher priority that conflicts with a lock revokes it, and a request waits,
which changes nothing, exactly when a lock in its way is not of a lower priority. -/
theorem lock_decisions_safe (calls : List LockCall) (h : Guarded lockStep FollowsCall [] calls) :
    (∀ a ∈ calls.foldl lockStep [], ∀ b ∈ calls.foldl lockStep [], a.taskId ≠ b.taskId → a.revoked = false → b.revoked = false → ¬ Conflict a b) ∧
    (∀ call, FollowsCall (calls.foldl lockStep []) call → ∀ lock ∈ calls.foldl lockStep [], lock ∉ lockStep (calls.foldl lockStep []) call →
      (∃ released, call = .release released ∧ released lock = true) ∨
        ∃ request existing id, call = .request request existing id ∧ lock.revoked = false ∧ lock.taskId ≠ request.taskId ∧
          lock.priority < request.priority ∧ Conflict request lock ∧ { lock with revoked := true } ∈ lockStep (calls.foldl lockStep []) call) ∧
    ∀ request existing id, Follows (calls.foldl lockStep []) request existing id →
      (evaluateLockRequest request existing = .blocked ↔ request.revoked = false ∧ ∃ held ∈ calls.foldl lockStep [], held.revoked = false ∧
        held.taskId ≠ request.taskId ∧ Conflict request held ∧ request.priority ≤ held.priority) ∧
      (evaluateLockRequest request existing = .blocked →
        lockStep (calls.foldl lockStep []) (.request request existing id) = calls.foldl lockStep []) := by
  have hexclusive : Exclusive (calls.foldl lockStep []) :=
    h.inv Exclusive (fun _ _ hcall hexclusive => hexclusive.step hcall) ⟨nodup_nil, by simp⟩
  refine ⟨hexclusive.apart, fun call hcall lock hlock => hexclusive.changed hcall hlock, fun request existing id hfollows => ⟨?_, ?_⟩⟩
  · rw [evaluateLockRequest_blocked_iff]
    constructor
    · rintro ⟨held, hheld, ⟨htask, hconflicts⟩, hpriority⟩
      obtain ⟨hrequest, hlive, hconflict⟩ := (TaskLock.conflictsWith_iff request held).1 hconflicts
      exact ⟨hrequest, held, hfollows.held held hheld, hlive, htask, hconflict, hpriority⟩
    · rintro ⟨hrequest, held, hheld, hlive, htask, hconflict, hpriority⟩
      obtain ⟨hmem, hstands⟩ := hfollows.mem_existing hheld htask hlive hrequest hconflict
      exact ⟨held, hmem, hstands, hpriority⟩
  · exact fun hblocked => lockStep_blocked hblocked id

/-! ## Three tasks on one hour -/

def hourLock (task : String) (lockType : LockType) (priority : Int64) : TaskLock :=
  ⟨"", task, "wiki", ⟨0, 3600000, by decide⟩, lockType, priority, false⟩

/-- Two shared locks, an exclusive request that ties with one of them, and one above both. -/
def hourCalls : List LockCall :=
  [.request (hourLock "a" .shared 10) [] "1",
    .request (hourLock "b" .shared 20) [{ hourLock "a" .shared 10 with id := "1" }] "2",
    .request (hourLock "c" .exclusive 20) [{ hourLock "a" .shared 10 with id := "1" }, { hourLock "b" .shared 20 with id := "2" }] "3",
    .request (hourLock "d" .exclusive 30) [{ hourLock "a" .shared 10 with id := "1" }, { hourLock "b" .shared 20 with id := "2" }] "4"]

theorem hourCalls_follow : Guarded lockStep FollowsCall [] hourCalls := by
  refine ⟨⟨?_, ?_, ?_⟩, ⟨?_, ?_, ?_⟩, ⟨?_, ?_, ?_⟩, ⟨?_, ?_, ?_⟩, trivial⟩ <;> decide +kernel

/-- An exclusive request of the priority that the table holds waits. -/
theorem lock_decisions_safe_hour :
    lockStep (hourCalls.foldl lockStep []) (.request (hourLock "e" .exclusive 30) (hourCalls.foldl lockStep []) "5") = hourCalls.foldl lockStep [] :=
  ((lock_decisions_safe hourCalls hourCalls_follow).2.2 _ _ "5" ⟨by decide +kernel, by decide +kernel, by decide +kernel⟩).2 (by rfl)

end FerroDruid.Overlord
