import Mathlib.Data.List.Nodup
import FerroDruid.Cluster.Locks
/-!
# The segment-action queue

`EnqueueSegmentAction` and `dequeue_actions`, over any run of the state
machine. A server's queue is what the accepted enqueues since its last dequeue
leave when a later one of a segment replaces an earlier one. The caps hold
throughout, and a refused enqueue is seen by no server.

`enqueue_cases` sums up the command. The invariants split on it.
-/

namespace FerroDruid.Cluster

open FerroDruid.Lib List

/-! ## The accessors -/

def pendingActions (m : ClusterManager) (server_name : String) : List QueuedSegmentAction :=
  m.segment_queue.getD server_name []

/-- What is handed out, and the manager that is left. -/
def dequeueActions (m : ClusterManager) (server_name : String) : List QueuedSegmentAction × ClusterManager :=
  (m.segment_queue.getD server_name [], { m with segment_queue := m.segment_queue.erase server_name })

def segmentQueueTotal (m : ClusterManager) : ℕ := (m.segment_queue.values.map List.length).sum

/-! ## The last action of each segment -/

/-- Of actions in order, those that no later one of the same segment replaces. -/
def latest : List QueuedSegmentAction → List QueuedSegmentAction
  | [] => []
  | a :: rest => if ∃ b ∈ rest, b.segment_id = a.segment_id then latest rest else a :: latest rest

variable (l : List QueuedSegmentAction)

theorem latest_append (a : QueuedSegmentAction) :
    latest (l ++ [a]) = (latest l).filter (fun b => b.segment_id ≠ a.segment_id) ++ [a] := by
  induction l with
  | nil => rfl
  | cons b rest ih =>
    simp only [cons_append, latest, ih]
    by_cases hlater : ∃ c ∈ rest, c.segment_id = b.segment_id
    · obtain ⟨c, hc, he⟩ := hlater
      rw [if_pos ⟨c, mem_append_left _ hc, he⟩, if_pos ⟨c, hc, he⟩]
    · rw [if_neg hlater]
      by_cases hab : a.segment_id = b.segment_id
      · rw [if_pos ⟨a, by simp, hab⟩]
        simp [hab]
      · have hno : ¬ ∃ c ∈ rest ++ [a], c.segment_id = b.segment_id := by
          simp only [mem_append, mem_singleton]
          rintro ⟨c, hc | rfl, he⟩
          · exact hlater ⟨c, hc, he⟩
          · exact hab he
        rw [if_neg hno]
        simp [Ne.symm hab]

theorem latest_sublist : (latest l).Sublist l := by
  induction l with
  | nil => exact .slnil
  | cons a rest ih =>
    unfold latest
    split_ifs
    · exact ih.cons a
    · exact ih.cons_cons a

/-- At most one action stays for each segment. -/
theorem nodup_latest : ((latest l).map (·.segment_id)).Nodup := by
  induction l with
  | nil => exact nodup_nil
  | cons a rest ih =>
    unfold latest
    split_ifs with h
    · exact ih
    · rw [map_cons, nodup_cons]
      refine ⟨fun hmem => ?_, ih⟩
      obtain ⟨b, hb, he⟩ := mem_map.1 hmem
      exact h ⟨b, (latest_sublist rest).subset hb, he⟩

/-! ## One enqueue -/

theorem segmentQueueTotal_split (m : ClusterManager) (sv : String) :
    segmentQueueTotal m = (HashMap.weight List.length (m.segment_queue.erase sv)) + (pendingActions m sv).length := by
  have h := HashMap.weight_erase List.length m.segment_queue sv
  unfold pendingActions HashMap.getD
  cases hl : m.segment_queue.lookup sv <;> simp_all [segmentQueueTotal, HashMap.weight]

theorem weight_erase_insert (q : HashMap String (List QueuedSegmentAction)) (sv : String)
    (l : List QueuedSegmentAction) :
    HashMap.weight List.length ((q.insert sv l).erase sv) = HashMap.weight List.length (q.erase sv) := by
  have h := HashMap.weight_erase List.length (q.insert sv l) sv
  rw [AList.lookup_insert, HashMap.weight_insert] at h
  simp only [Option.map_some, Option.getD_some] at h
  omega

/-- What is left of a server's queue once the actions on the segment are taken out. -/
def coalesce (m : ClusterManager) (sv sg : String) : List QueuedSegmentAction :=
  (pendingActions m sv).filter fun a => a.segment_id ≠ sg

/-- What the rest of the queue holds, over all other servers. -/
def elsewhere (m : ClusterManager) (sv : String) : ℕ := HashMap.weight List.length (m.segment_queue.erase sv)

/-- The count held against the total cap. It leaves out the action about to be
pushed when that action replaces one. -/
def countedTotal (m : ClusterManager) (sv sg : String) : ℕ :=
  (coalesce m sv sg).length + elsewhere m sv +
    (if (coalesce m sv sg).length < (pendingActions m sv).length then 0 else 1)

/-- The command in two cases: refused, with the queue coalesced all the same, or accepted. -/
theorem enqueue_cases (env : ApplyEnv) (m : ClusterManager) (sv sg : String) (act : SegmentAction) :
    ((∃ e, (enqueueSegmentAction env m sv sg act).1 = .error e) ∧
      (enqueueSegmentAction env m sv sg act).2.segment_queue = m.segment_queue.insert sv (coalesce m sv sg) ∧
      (MAX_SEGMENT_QUEUE_PER_SERVER < (coalesce m sv sg).length + 1 ∨
        MAX_SEGMENT_QUEUE_TOTAL < countedTotal m sv sg)) ∨
    ((enqueueSegmentAction env m sv sg act).1 = .ok .Ok ∧
      (enqueueSegmentAction env m sv sg act).2.segment_queue =
        (m.segment_queue.insert sv (coalesce m sv sg)).insert sv
          (coalesce m sv sg ++ [⟨sg, act, env.utc_now⟩]) ∧
      (coalesce m sv sg).length + 1 ≤ MAX_SEGMENT_QUEUE_PER_SERVER ∧
      countedTotal m sv sg ≤ MAX_SEGMENT_QUEUE_TOTAL) := by
  have hsum : ((HashMap.values (AList.insert sv (coalesce m sv sg) m.segment_queue)).map List.length).sum =
      (coalesce m sv sg).length + elsewhere m sv := HashMap.weight_insert _ _ _ _
  simp only [enqueueSegmentAction]
  rw [show (m.segment_queue.getD sv []).filter (fun a => decide (a.segment_id ≠ sg)) = coalesce m sv sg from rfl,
    show m.segment_queue.getD sv [] = pendingActions m sv from rfl, hsum]
  simp only [decide_eq_true_eq, gt_iff_lt]
  rw [show (coalesce m sv sg).length + elsewhere m sv +
    (if (coalesce m sv sg).length < (pendingActions m sv).length then 0 else 1) = countedTotal m sv sg from rfl]
  by_cases hper : MAX_SEGMENT_QUEUE_PER_SERVER < (coalesce m sv sg).length + 1
  · rw [if_pos hper]
    exact .inl ⟨⟨_, rfl⟩, rfl, .inl hper⟩
  · rw [if_neg hper]
    by_cases hglobal : MAX_SEGMENT_QUEUE_TOTAL < countedTotal m sv sg
    · rw [if_pos hglobal]
      exact .inl ⟨⟨_, rfl⟩, rfl, .inr hglobal⟩
    · rw [if_neg hglobal]
      exact .inr ⟨rfl, rfl, not_lt.1 hper, not_lt.1 hglobal⟩

variable {m m' : ClusterManager} {sg : String}

/-- What the servers' queues hold after an accepted enqueue. -/
theorem pendingActions_accepted {sv : String} {a : QueuedSegmentAction} (hq : m'.segment_queue =
      (m.segment_queue.insert sv (coalesce m sv sg)).insert sv (coalesce m sv sg ++ [a])) (sv' : String) :
    pendingActions m' sv' = if sv' = sv then coalesce m sv sg ++ [a] else pendingActions m sv' := by
  unfold pendingActions
  rw [hq]
  split_ifs with hsv
  · subst hsv
    exact HashMap.getD_insert_self _ _ _ _
  · rw [HashMap.getD_insert_of_ne hsv, HashMap.getD_insert_of_ne hsv]

theorem segmentQueueTotal_accepted {sv : String} {a : QueuedSegmentAction} (hq : m'.segment_queue =
      (m.segment_queue.insert sv (coalesce m sv sg)).insert sv (coalesce m sv sg ++ [a])) :
    segmentQueueTotal m' = (coalesce m sv sg).length + 1 + elsewhere m sv := by
  have hins := HashMap.weight_insert List.length (m.segment_queue.insert sv (coalesce m sv sg)) sv
    (coalesce m sv sg ++ [a])
  rw [weight_erase_insert, ← hq, length_append] at hins
  exact hins

/-! ## A run -/

/-- A command of any kind, or a server taking its queue. -/
inductive QueueInput where
  | command (env : ApplyEnv) (c : ClusterCommand)
  | dequeue (server_name : String)

/-- The manager, and each server's accepted enqueues since its last dequeue. -/
structure QueueState where
  manager : ClusterManager
  accepted : String → List QueuedSegmentAction

/-- An accepted enqueue is noted under its server; any other command leaves the notes alone. -/
def noteAccepted (env : ApplyEnv) (answer : Except ClusterError CommandResult)
    (accepted : String → List QueuedSegmentAction) : ClusterCommand → String → List QueuedSegmentAction
  | .EnqueueSegmentAction sv sg act =>
    match answer with
    | .ok _ => Function.update accepted sv (accepted sv ++ [⟨sg, act, env.utc_now⟩])
    | .error _ => accepted
  | _ => accepted

def queueStep (chrono : Chrono) (s : QueueState) : QueueInput → QueueState
  | .command env c =>
    ⟨(apply chrono env s.manager c).2, noteAccepted env (apply chrono env s.manager c).1 s.accepted c⟩
  | .dequeue server_name =>
    ⟨(dequeueActions s.manager server_name).2, Function.update s.accepted server_name []⟩

/-- A manager nobody has enqueued on, as the constructors build it. -/
def QueueState.start (m : ClusterManager) : QueueState := ⟨m, fun _ => []⟩

structure QueueInv (s : QueueState) : Prop where
  pending : ∀ sv, pendingActions s.manager sv = latest (s.accepted sv)
  per_server : ∀ sv, (pendingActions s.manager sv).length ≤ MAX_SEGMENT_QUEUE_PER_SERVER
  total : segmentQueueTotal s.manager ≤ MAX_SEGMENT_QUEUE_TOTAL

/-- Only an enqueue touches the queue. -/
theorem apply_segment_queue (chrono : Chrono) (env : ApplyEnv) (m : ClusterManager) (c : ClusterCommand)
    (h : ∀ sv sg act, c ≠ .EnqueueSegmentAction sv sg act) :
    (apply chrono env m c).2.segment_queue = m.segment_queue := by
  cases c with
  | EnqueueSegmentAction sv sg act => exact absurd rfl (h sv sg act)
  | DeregisterService n t => simp only [apply, deregisterService]; split <;> rfl
  | AcquireTaskLock t d a b => simp only [apply, applyAcquireLock]; split <;> rfl
  | ReleaseTaskLock t => simp only [apply]; split <;> rfl
  | _ => rfl

theorem pendingActions_congr (h : m'.segment_queue = m.segment_queue) (sv : String) :
    pendingActions m' sv = pendingActions m sv := by
  rw [pendingActions, h, pendingActions]

/-- When the caps hold, replacing an action is never refused: the entry that
makes room was counted. -/
theorem coalesce_eq_of_refused {sv : String}
    (hp : (pendingActions m sv).length ≤ MAX_SEGMENT_QUEUE_PER_SERVER)
    (ht : segmentQueueTotal m ≤ MAX_SEGMENT_QUEUE_TOTAL)
    (h : MAX_SEGMENT_QUEUE_PER_SERVER < (coalesce m sv sg).length + 1 ∨
      MAX_SEGMENT_QUEUE_TOTAL < countedTotal m sv sg) : coalesce m sv sg = pendingActions m sv := by
  have hsplit : segmentQueueTotal m = elsewhere m sv + (pendingActions m sv).length := segmentQueueTotal_split m sv
  have hle : (coalesce m sv sg).length ≤ (pendingActions m sv).length := length_filter_le _ _
  have hnot : ¬ (coalesce m sv sg).length < (pendingActions m sv).length := by
    intro hlt
    unfold countedTotal at h
    rw [if_pos hlt] at h
    omega
  exact filter_sublist.eq_of_length (le_antisymm hle (not_lt.1 hnot))

/-- A refused enqueue is not seen by any server. -/
theorem pendingActions_of_refused {env : ApplyEnv} {sv : String} {act : SegmentAction}
    {e : ClusterError} (hp : (pendingActions m sv).length ≤ MAX_SEGMENT_QUEUE_PER_SERVER)
    (ht : segmentQueueTotal m ≤ MAX_SEGMENT_QUEUE_TOTAL)
    (h : (enqueueSegmentAction env m sv sg act).1 = .error e) (sv' : String) :
    pendingActions (enqueueSegmentAction env m sv sg act).2 sv' = pendingActions m sv' ∧
      segmentQueueTotal (enqueueSegmentAction env m sv sg act).2 = segmentQueueTotal m := by
  rcases enqueue_cases env m sv sg act with ⟨-, hq, hcap⟩ | ⟨hok, -⟩
  · have hsame := coalesce_eq_of_refused hp ht hcap
    constructor
    · unfold pendingActions
      rw [hq]
      by_cases hsv : sv' = sv
      · subst hsv
        rw [HashMap.getD_insert_self, hsame]
        rfl
      · exact HashMap.getD_insert_of_ne hsv
    · rw [segmentQueueTotal_split m sv, segmentQueueTotal, hq, ← hsame]
      have := HashMap.weight_insert List.length m.segment_queue sv (coalesce m sv sg)
      unfold HashMap.weight at this ⊢
      omega
  · rw [hok] at h
    cases h

theorem queueInv_of_enqueue {s : QueueState} (h : QueueInv s) (env : ApplyEnv) (sv sg : String)
    (act : SegmentAction) :
    QueueInv ⟨(enqueueSegmentAction env s.manager sv sg act).2,
      noteAccepted env (enqueueSegmentAction env s.manager sv sg act).1 s.accepted
        (.EnqueueSegmentAction sv sg act)⟩ := by
  rcases enqueue_cases env s.manager sv sg act with ⟨⟨e, he⟩, -⟩ | ⟨hok, hq, hper, htot⟩
  · have hsame := pendingActions_of_refused (h.per_server sv) h.total he
    simp only [noteAccepted, he]
    exact ⟨fun sv' => (hsame sv').1.trans (h.pending sv'), fun sv' => (hsame sv').1 ▸ h.per_server sv',
      (hsame sv).2 ▸ h.total⟩
  · have hkept : coalesce s.manager sv sg = (latest (s.accepted sv)).filter fun b => b.segment_id ≠ sg := by
      unfold coalesce
      rw [h.pending sv]
    have hpend := pendingActions_accepted hq
    simp only [noteAccepted, hok]
    constructor
    · intro sv'
      simp only [hpend sv']
      by_cases hsv : sv' = sv
      · subst hsv
        rw [if_pos rfl, Function.update_self, latest_append, hkept]
      · rw [if_neg hsv, Function.update_of_ne hsv]
        exact h.pending sv'
    · intro sv'
      rw [hpend sv']
      split_ifs with hsv
      · simpa using hper
      · exact h.per_server sv'
    · have hafter := segmentQueueTotal_accepted hq
      have hbefore : segmentQueueTotal s.manager = elsewhere s.manager sv + (pendingActions s.manager sv).length :=
        segmentQueueTotal_split s.manager sv
      have htotal := h.total
      unfold countedTotal at htot
      change segmentQueueTotal (enqueueSegmentAction env s.manager sv sg act).2 ≤ MAX_SEGMENT_QUEUE_TOTAL
      -- with a replaced action the total stays below what it was, else it is what was counted
      split_ifs at htot <;> omega

theorem queueStep_inv (chrono : Chrono) (s : QueueState) (i : QueueInput) (h : QueueInv s) :
    QueueInv (queueStep chrono s i) := by
  cases i with
  | command env c =>
    by_cases hc : ∃ sv sg act, c = .EnqueueSegmentAction sv sg act
    · obtain ⟨sv, sg, act, rfl⟩ := hc
      exact queueInv_of_enqueue h env sv sg act
    · have hq := apply_segment_queue chrono env s.manager c fun sv sg act he => hc ⟨sv, sg, act, he⟩
      have hnote : noteAccepted env (apply chrono env s.manager c).1 s.accepted c = s.accepted := by
        cases c with
        | EnqueueSegmentAction sv sg act => exact absurd ⟨sv, sg, act, rfl⟩ hc
        | _ => rfl
      refine ⟨fun sv => ?_, fun sv => ?_, ?_⟩
      · simp only [queueStep, hnote, pendingActions_congr hq, h.pending]
      · simp only [queueStep, pendingActions_congr hq, h.per_server]
      · simp only [queueStep, segmentQueueTotal, hq]
        exact h.total
  | dequeue sv =>
    have hpend : ∀ sv', pendingActions (dequeueActions s.manager sv).2 sv' =
        if sv' = sv then [] else pendingActions s.manager sv' := by
      intro sv'
      unfold pendingActions dequeueActions HashMap.getD
      split_ifs with hsv
      · rw [hsv, AList.lookup_erase]
        rfl
      · rw [AList.lookup_erase_ne hsv]
    refine ⟨fun sv' => ?_, fun sv' => ?_, ?_⟩
    · simp only [queueStep, hpend, Function.update_apply]
      split_ifs
      · rfl
      · exact h.pending sv'
    · simp only [queueStep, hpend]
      split_ifs
      · exact Nat.zero_le _
      · exact h.per_server sv'
    · have hsplit := segmentQueueTotal_split s.manager sv
      have htotal := h.total
      simp only [queueStep, dequeueActions, segmentQueueTotal, HashMap.weight] at hsplit htotal ⊢
      omega

theorem queueInv_start (h : m.segment_queue = ∅) : QueueInv (.start m) := by
  have hp : ∀ sv, pendingActions m sv = [] := fun sv => by
    rw [pendingActions, h]
    rfl
  refine ⟨hp, fun sv => ?_, ?_⟩
  · rw [QueueState.start, hp sv]
    exact Nat.zero_le _
  · rw [QueueState.start, segmentQueueTotal, h]
    exact Nat.zero_le _

/-- Along every run from an empty queue: a server's queue is the last accepted
action of each segment since its last dequeue, in the order of those, with one
action a segment. The caps hold, and a refused enqueue changes no server's queue. -/
theorem segmentQueue_run (chrono : Chrono) (m : ClusterManager) (inputs : List QueueInput)
    (hm : m.segment_queue = ∅) :
    let s := inputs.foldl (queueStep chrono) (.start m)
    (∀ sv, pendingActions s.manager sv = latest (s.accepted sv) ∧
      ((pendingActions s.manager sv).map (·.segment_id)).Nodup ∧
      (dequeueActions s.manager sv).1 = pendingActions s.manager sv ∧
      (pendingActions s.manager sv).length ≤ MAX_SEGMENT_QUEUE_PER_SERVER) ∧
    segmentQueueTotal s.manager ≤ MAX_SEGMENT_QUEUE_TOTAL ∧
    ∀ env sv sg act e, (apply chrono env s.manager (.EnqueueSegmentAction sv sg act)).1 = .error e →
      ∀ sv', pendingActions (apply chrono env s.manager (.EnqueueSegmentAction sv sg act)).2 sv' =
        pendingActions s.manager sv' := by
  intro s
  have hinv : QueueInv s := List.foldlRecOn inputs (queueStep chrono) (queueInv_start hm)
    fun t ht i _ => queueStep_inv chrono t i ht
  refine ⟨fun sv => ⟨hinv.pending sv, ?_, rfl, hinv.per_server sv⟩, hinv.total, ?_⟩
  · rw [hinv.pending sv]
    exact nodup_latest _
  · intro env sv sg act e he sv'
    exact (pendingActions_of_refused (hinv.per_server sv) hinv.total he sv').1

/-- `n1` alone, whose server `h1` is told to load two segments and to drop the first again. -/
def reloadRun : List QueueInput :=
  [.command (plainEnv "") (.EnqueueSegmentAction "h1" "s1" .Load),
    .command (plainEnv "") (.EnqueueSegmentAction "h1" "s2" .Load),
    .command (plainEnv "") (.EnqueueSegmentAction "h1" "s1" .Drop)]

theorem segmentQueue_run_reload :
    let s := reloadRun.foldl (queueStep januaryDates) (.start oneNode)
    pendingActions s.manager "h1" = latest (s.accepted "h1") ∧
      latest (s.accepted "h1") = [⟨"s2", .Load, 0⟩, ⟨"s1", .Drop, 0⟩] := by
  intro s
  exact ⟨((segmentQueue_run januaryDates oneNode reloadRun rfl).1 "h1").1, by decide⟩

end FerroDruid.Cluster
