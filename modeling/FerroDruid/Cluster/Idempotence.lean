import FerroDruid.Cluster.CatchUp
import FerroDruid.Cluster.SegmentQueue
/-!
# A follower takes each entry of a log once

The entries of one log reach a follower in any order, any number of times.
`deliver_outcome` sums up `receive_command` in four cases: stale, already
applied, ahead of the log, and the next entry. Only the last of them moves the
log. It moves it also when the state machine refuses the command: the entry is
logged first, and then counts as applied.
-/

namespace FerroDruid.Cluster

open FerroDruid.Lib ReplicationEngine List

variable (deps : Deps) (L : Nat → Nat × ClusterCommand)

/-- The delivery of one entry of the log: index, and the surroundings it is taken in. -/
abbrev Delivery := StepEnv × Nat

def deliverEntry (e : ReplicationEngine) (d : Delivery) : Except ClusterError Unit × ReplicationEngine :=
  receiveCommand deps d.1 e (L d.2).1 d.2 (L d.2).2

/-- The commands `L(1)`, ..., `L(k)`. -/
def commandsTo (k : Nat) : List ClusterCommand := (List.range k).map fun i => (L (i + 1)).2

/-- The follower's log is `L(1)`, ..., `L(k)` for its last index `k`, and its
state is `m` after these commands, each applied once. -/
structure Mirrors (m : ClusterManager) (e : ReplicationEngine) : Prop where
  command_log : e.command_log = (List.range e.last_index).map fun i => (i + 1, (L (i + 1)).2)
  log_terms : e.log_terms = (List.range e.last_index).map fun i => (L (i + 1)).1
  applied : e.history.applied = commandsTo L e.last_index
  state : ∃ envs, e.cluster_manager = (applyAll deps.chrono (commandsTo L e.last_index) envs m).2

/-- Neither the log nor the applied state has moved. -/
structure Unmoved (e e' : ReplicationEngine) : Prop where
  last_index : e'.last_index = e.last_index
  command_log : e'.command_log = e.command_log
  log_terms : e'.log_terms = e.log_terms
  applied : e'.history.applied = e.history.applied
  state : e'.cluster_manager = e.cluster_manager

/-- A follower that has no entry yet. -/
structure EmptyFollower (e : ReplicationEngine) : Prop where
  last_index : e.last_index = 0
  command_log : e.command_log = []
  log_terms : e.log_terms = []
  applied : e.history.applied = []

variable {deps L}

theorem emptyFollower_new (env : StepEnv) (config : ReplicationConfig) (m : ClusterManager) :
    EmptyFollower (ReplicationEngine.new env config m) := ⟨rfl, rfl, rfl, rfl⟩

theorem commandsTo_succ (k : Nat) : commandsTo L (k + 1) = commandsTo L k ++ [(L (k + 1)).2] := by
  simp [commandsTo, range_succ]

variable (chrono : Chrono) (cs : List ClusterCommand)

theorem applyAll_append (c : ClusterCommand) (env : Nat → ApplyEnv) (m : ClusterManager) :
    (applyAll chrono (cs ++ [c]) env m).2 = (apply chrono (env cs.length) (applyAll chrono cs env m).2 c).2 := by
  induction cs generalizing env m with
  | nil => rfl
  | cons c' cs ih =>
    exact ih (fun n => env (n + 1)) _

theorem applyAll_congr {env env' : Nat → ApplyEnv} (m : ClusterManager)
    (h : ∀ n < cs.length, env n = env' n) : applyAll chrono cs env m = applyAll chrono cs env' m := by
  induction cs generalizing env env' m with
  | nil => rfl
  | cons c cs ih =>
    have hrest := @ih (fun n => env (n + 1)) (fun n => env' (n + 1)) (apply chrono (env 0) m c).2
      fun n hn => h (n + 1) (Nat.succ_lt_succ hn)
    have hfirst := h 0 (Nat.succ_pos _)
    rw [hfirst] at hrest
    simp only [applyAll, hfirst, hrest]

/-- One more command on top of a list that was applied. -/
theorem applyAll_extend (c : ClusterCommand) (envs : Nat → ApplyEnv)
    (env : ApplyEnv) (m : ClusterManager) :
    ∃ envs', (apply chrono env (applyAll chrono cs envs m).2 c).2 = (applyAll chrono (cs ++ [c]) envs' m).2 := by
  refine ⟨fun n => if n < cs.length then envs n else env, ?_⟩
  have hcs := @applyAll_congr chrono cs (fun n => if n < cs.length then envs n else env) envs m
    fun n hn => if_pos hn
  rw [applyAll_append, hcs, if_neg (lt_irrefl _)]

/-! ## One delivery -/

variable {m : ClusterManager} {e : ReplicationEngine}

theorem Mirrors.storedTerm (h : Mirrors deps L m e) {i : Nat}
    (hi : i ≤ e.last_index) : e.storedTerm i = some (if i = 0 then 0 else (L i).1) := by
  unfold ReplicationEngine.storedTerm
  split_ifs with h0
  · rfl
  · rw [h.log_terms, getElem?_map, getElem?_range (by omega)]
    simp only [Option.map_some]
    rw [Nat.sub_add_cancel (Nat.pos_of_ne_zero h0)]

/-- What a delivery does, and when it is accepted. -/
theorem deliver_outcome (h : Mirrors deps L m e) (d : Delivery) :
    ((L d.2).1 < e.current_term ∧ (deliverEntry deps L e d).1.toBool = false ∧ Unmoved e (deliverEntry deps L e d).2) ∨
    (e.current_term ≤ (L d.2).1 ∧ d.2 ≤ e.last_index ∧ (deliverEntry deps L e d).1.toBool = true ∧
      Unmoved e (deliverEntry deps L e d).2) ∨
    (e.current_term ≤ (L d.2).1 ∧ e.last_index + 1 < d.2 ∧ (deliverEntry deps L e d).1.toBool = false ∧
      Unmoved e (deliverEntry deps L e d).2) ∨
    (e.current_term ≤ (L d.2).1 ∧ d.2 = e.last_index + 1 ∧
      (deliverEntry deps L e d).1.toBool = (apply deps.chrono d.1.apply e.cluster_manager (L d.2).2).1.toBool ∧
      (deliverEntry deps L e d).2.last_index = e.last_index + 1 ∧
      (deliverEntry deps L e d).2.command_log = e.command_log ++ [(e.last_index + 1, (L (e.last_index + 1)).2)] ∧
      (deliverEntry deps L e d).2.log_terms = e.log_terms ++ [(L (e.last_index + 1)).1] ∧
      (deliverEntry deps L e d).2.history.applied = e.history.applied ++ [(L (e.last_index + 1)).2] ∧
      (deliverEntry deps L e d).2.cluster_manager =
        (apply deps.chrono d.1.apply e.cluster_manager (L (e.last_index + 1)).2).2) := by
  obtain ⟨env, i⟩ := d
  simp only [deliverEntry, receiveCommand]
  by_cases hstale : (L i).1 < e.current_term
  · rw [if_pos hstale]
    exact .inl ⟨hstale, rfl, rfl, rfl, rfl, rfl, rfl⟩
  rw [if_neg hstale]
  refine .inr ?_
  have hterm := not_lt.1 hstale
  by_cases hold : i ≤ e.last_index
  · rw [if_pos hold, show ({ e with current_term := (L i).1 } : ReplicationEngine).storedTerm i = _ from
      h.storedTerm hold]
    -- the term stored for the entry is the entry's own
    have hmatch : ¬ ((if i = 0 then 0 else (L i).1) ≠ (L i).1 ∧ (if i = 0 then 0 else (L i).1) ≠ 0) := by
      split_ifs <;> simp
    simp only [if_neg hmatch]
    exact .inl ⟨hterm, hold, rfl, rfl, rfl, rfl, rfl, rfl⟩
  rw [if_neg hold]
  by_cases hgap : i > e.last_index + 1
  · rw [if_pos hgap]
    exact .inr (.inl ⟨hterm, hgap, rfl, rfl, rfl, rfl, rfl, rfl⟩)
  rw [if_neg hgap]
  obtain rfl : i = e.last_index + 1 := by omega
  refine .inr (.inr ⟨hterm, rfl, ?_⟩)
  cases ha : (apply deps.chrono env.apply e.cluster_manager (L (e.last_index + 1)).2).1 with
  | error err =>
    simp only [appendEntry, applyCommand, persistAppend, ha, Except.toBool, and_self]
  | ok r =>
    simp only [appendEntry, applyCommand, persistAppend, ha, Except.toBool, resetElectionTimer, and_self]

theorem Mirrors.of_unmoved {e' : ReplicationEngine} (h : Mirrors deps L m e)
    (hu : Unmoved e e') : Mirrors deps L m e' where
  command_log := by rw [hu.command_log, hu.last_index, h.command_log]
  log_terms := by rw [hu.log_terms, hu.last_index, h.log_terms]
  applied := by rw [hu.applied, hu.last_index, h.applied]
  state := by rw [hu.state, hu.last_index]; exact h.state

theorem Mirrors.deliver (h : Mirrors deps L m e) (d : Delivery) :
    Mirrors deps L m (deliverEntry deps L e d).2 := by
  rcases deliver_outcome h d with ⟨-, -, hu⟩ | ⟨-, -, -, hu⟩ | ⟨-, -, -, hu⟩ |
    ⟨-, -, -, hlast, hlog, hterms, happlied, hstate⟩
  · exact h.of_unmoved hu
  · exact h.of_unmoved hu
  · exact h.of_unmoved hu
  · obtain ⟨envs, hm⟩ := h.state
    refine ⟨?_, ?_, ?_, ?_⟩
    · rw [hlast, hlog, h.command_log, range_succ, map_append, map_singleton]
    · rw [hlast, hterms, h.log_terms, range_succ, map_append, map_singleton]
    · rw [hlast, happlied, h.applied, commandsTo_succ]
    · rw [hlast, hstate, hm, commandsTo_succ]
      exact applyAll_extend _ _ _ _ _ _

theorem EmptyFollower.mirrors (h : EmptyFollower e) : Mirrors deps L e.cluster_manager e where
  command_log := by rw [h.command_log, h.last_index]; rfl
  log_terms := by rw [h.log_terms, h.last_index]; rfl
  applied := by rw [h.applied, h.last_index]; rfl
  state := ⟨fun _ => plainEnv "", by rw [h.last_index]; rfl⟩

variable (deps L)

/-- Whatever was delivered of the log so far, the follower has exactly the
entries up to its last index, each applied once and in order. The next delivery
is accepted when its term is not stale and its index is at most the last, or
one more and the state machine takes the command. A delivery that is stale or
ahead of the log is rejected and moves nothing; the next entry moves the log
also when it is refused. -/
theorem follower_idempotent (e : ReplicationEngine) (ds : List Delivery) (he : EmptyFollower e) :
    let f := ds.foldl (fun f d => (deliverEntry deps L f d).2) e
    Mirrors deps L e.cluster_manager f ∧ ∀ d : Delivery,
      ((deliverEntry deps L f d).1.toBool = true ↔ f.current_term ≤ (L d.2).1 ∧
        (d.2 ≤ f.last_index ∨ d.2 = f.last_index + 1 ∧
          (apply deps.chrono d.1.apply f.cluster_manager (L d.2).2).1.toBool = true)) ∧
      ((L d.2).1 < f.current_term ∨ d.2 ≠ f.last_index + 1 → Unmoved f (deliverEntry deps L f d).2) ∧
      (f.current_term ≤ (L d.2).1 → d.2 = f.last_index + 1 →
        (deliverEntry deps L f d).2.last_index = f.last_index + 1) := by
  intro f
  have hf : Mirrors deps L e.cluster_manager f := List.foldlRecOn ds _ he.mirrors fun g hg d _ => hg.deliver d
  refine ⟨hf, fun d => ?_⟩
  rcases deliver_outcome hf d with ⟨hs, ha, hu⟩ | ⟨ht, hi, ha, hu⟩ | ⟨ht, hi, ha, hu⟩ | ⟨ht, hi, ha, hl, -⟩
  · exact ⟨by simp [ha, not_le.2 hs], fun _ => hu, fun ht => absurd ht (not_le.2 hs)⟩
  · exact ⟨by simp [ha, ht, hi], fun _ => hu, fun _ hn => absurd hi (by omega)⟩
  · refine ⟨?_, fun _ => hu, fun _ hn => absurd hi (by omega)⟩
    have h1 : ¬ d.2 ≤ f.last_index := by omega
    have h2 : d.2 ≠ f.last_index + 1 := by omega
    simp [ha, h1, h2]
  · refine ⟨?_, fun hno => ?_, fun _ _ => hl⟩
    · have h1 : ¬ d.2 ≤ f.last_index := by omega
      rw [ha]
      exact ⟨fun hok => ⟨ht, .inr ⟨hi, hok⟩⟩, fun hok => (hok.2.resolve_left h1).2⟩
    · rcases hno with hs | hn
      · exact absurd ht (not_le.2 hs)
      · exact absurd hi hn

/-- A log of one term that sends server `h1` one more segment with each entry. -/
def loadLog (i : Nat) : Nat × ClusterCommand :=
  (1, .EnqueueSegmentAction "h1" (String.ofList (List.replicate i 's')) .Load)

def loadStart : ReplicationEngine :=
  ReplicationEngine.new stillEnv (memberConfig "n2" ["n1", "n3"]) (memberManager "n2")

theorem follower_idempotent_two :
    Mirrors bareDeps loadLog (memberManager "n2")
      ([(stillEnv, 2), (stillEnv, 1), (stillEnv, 1), (stillEnv, 2)].foldl
        (fun f d => (deliverEntry bareDeps loadLog f d).2) loadStart) :=
  (follower_idempotent bareDeps loadLog loadStart
    [(stillEnv, 2), (stillEnv, 1), (stillEnv, 1), (stillEnv, 2)] (emptyFollower_new _ _ _)).1

/-! ## The next entry, refused -/

/-- The first `n` entries, delivered in order. -/
def loaded : Nat → ReplicationEngine
  | 0 => loadStart
  | n + 1 => (deliverEntry bareDeps loadLog (loaded n) (stillEnv, n + 1)).2

/-- The queue of `h1` holds `n` actions, on segments with ids of at most `n` letters. -/
structure Holding (m : ClusterManager) (n : Nat) : Prop where
  length : (pendingActions m "h1").length = n
  ids : ∀ a ∈ pendingActions m "h1", a.segment_id.toList.length ≤ n
  total : segmentQueueTotal m = n

theorem Holding.coalesce_eq {n : Nat} (h : Holding m n) :
    coalesce m "h1" (String.ofList (List.replicate (n + 1) 's')) = pendingActions m "h1" := by
  refine filter_eq_self.2 fun a ha => ?_
  have hid := h.ids a ha
  refine decide_eq_true fun he => ?_
  rw [he, String.toList_ofList, length_replicate] at hid
  omega

theorem Holding.enqueue {n : Nat} (h : Holding m n) (hn : n < MAX_SEGMENT_QUEUE_PER_SERVER) :
    Holding (apply bareDeps.chrono stillEnv.apply m (loadLog (n + 1)).2).2 (n + 1) := by
  have hkept := h.coalesce_eq
  have hsplit : segmentQueueTotal m = elsewhere m "h1" + (pendingActions m "h1").length :=
    segmentQueueTotal_split m "h1"
  have hcounted : countedTotal m "h1" (String.ofList (List.replicate (n + 1) 's')) = n + 1 := by
    have := h.total
    unfold countedTotal
    rw [hkept, if_neg (lt_irrefl _)]
    omega
  rcases enqueue_cases stillEnv.apply m "h1" (String.ofList (List.replicate (n + 1) 's')) .Load with
    ⟨-, -, hcap⟩ | ⟨-, hq, -, -⟩
  · rw [hkept, hcounted, h.length] at hcap
    simp only [MAX_SEGMENT_QUEUE_PER_SERVER, MAX_SEGMENT_QUEUE_TOTAL] at hcap hn
    omega
  · have hp := pendingActions_accepted hq "h1"
    rw [if_pos rfl, hkept] at hp
    refine ⟨?_, ?_, ?_⟩
    · simp only [loadLog, apply, hp, length_append, h.length, length_singleton]
    · simp only [loadLog, apply, hp]
      intro a ha
      rcases mem_append.1 ha with ha | ha
      · exact Nat.le_succ_of_le (h.ids a ha)
      · rw [mem_singleton.1 ha]
        simp
    · have ht := segmentQueueTotal_accepted hq
      rw [hkept, h.length] at ht
      have := h.total
      have := h.length
      simp only [loadLog, apply, ht]
      omega

theorem last_index_of_next {t : Nat} (ht : e.current_term ≤ t) (env : StepEnv) (c : ClusterCommand) :
    (receiveCommand bareDeps env e t (e.last_index + 1) c).2.last_index = e.last_index + 1 := by
  have hlog := receiveCommand_log bareDeps env e t (e.last_index + 1) c
  rw [if_pos ⟨ht, rfl⟩] at hlog
  exact congrArg LogView.last_index hlog

theorem loaded_state (n : Nat) (hn : n ≤ MAX_SEGMENT_QUEUE_PER_SERVER) :
    (loaded n).last_index = n ∧ (loaded n).current_term ≤ 1 ∧ Holding (loaded n).cluster_manager n := by
  induction n with
  | zero => exact ⟨rfl, Nat.zero_le _, ⟨rfl, fun a ha => absurd ha not_mem_nil, rfl⟩⟩
  | succ n ih =>
    obtain ⟨hlast, hterm, hhold⟩ := ih (Nat.le_of_succ_le hn)
    have hnext := receiveCommand_next bareDeps stillEnv (loaded n) 1 (loadLog (n + 1)).2
    have hindex := last_index_of_next hterm stillEnv (loadLog (n + 1)).2
    rw [hlast] at hnext hindex
    obtain ⟨hct, hm⟩ := hnext.2 hterm
    refine ⟨hindex, hct.le, ?_⟩
    have hmore := hhold.enqueue hn
    rw [← hm] at hmore
    exact hmore

theorem refused_when_full {f : ReplicationEngine} (hterm : f.current_term ≤ 1)
    (hhold : Holding f.cluster_manager f.last_index) (hfull : MAX_SEGMENT_QUEUE_PER_SERVER ≤ f.last_index) :
    (deliverEntry bareDeps loadLog f (stillEnv, f.last_index + 1)).1.toBool = false ∧
      ¬ Unmoved f (deliverEntry bareDeps loadLog f (stillEnv, f.last_index + 1)).2 := by
  refine ⟨eq_false_of_ne_true fun hok => ?_, fun hu => ?_⟩
  · have happly := ((receiveCommand_next bareDeps stillEnv f 1 (loadLog (f.last_index + 1)).2).1.1 hok).2
    rcases enqueue_cases stillEnv.apply f.cluster_manager "h1"
      (String.ofList (List.replicate (f.last_index + 1) 's')) .Load with ⟨⟨err, he⟩, -⟩ | ⟨-, -, hper, -⟩
    · simp only [loadLog, apply, he] at happly
      cases happly
    · rw [hhold.coalesce_eq, hhold.length] at hper
      omega
  · have hindex := last_index_of_next hterm stillEnv (loadLog (f.last_index + 1)).2
    exact absurd (hindex.symm.trans hu.last_index) (Nat.succ_ne_self _)

/-- The follower rejects entry `n + 1` of the log for its state, and has it in its log. -/
def RefusesNext (n : Nat) : Prop :=
  (loaded n).last_index = n ∧ (loaded n).current_term ≤ (loadLog (n + 1)).1 ∧
    (deliverEntry bareDeps loadLog (loaded n) (stillEnv, n + 1)).1.toBool = false ∧
    ¬ Unmoved (loaded n) (deliverEntry bareDeps loadLog (loaded n) (stillEnv, n + 1)).2

theorem refusesNext_of_full {n : Nat} (hn : n = MAX_SEGMENT_QUEUE_PER_SERVER) : RefusesNext n := by
  obtain ⟨hlast, hterm, hhold⟩ := loaded_state n hn.le
  have hrefused := refused_when_full hterm (by rwa [hlast]) (by rw [hlast, hn])
  rw [hlast] at hrefused
  exact ⟨hlast, hterm, hrefused⟩

/-- Once the queue for `h1` is full, index and term of the next entry are in
order, and yet its delivery is rejected and moves the log. -/
theorem next_entry_refused : RefusesNext MAX_SEGMENT_QUEUE_PER_SERVER := refusesNext_of_full rfl

end FerroDruid.Cluster
