import FerroDruid.Cluster.Agreement
import FerroDruid.Cluster.Voting
import FerroDruid.Cluster.Log
/-!
# Catching a follower up

A leader replays its log to a follower that is behind, round by round: the
messages of `build_replay_actions` are delivered in order, the leader takes
the acknowledgements, and the next round starts where they end.

A replayed entry carries the term it was written at, and the follower compares
it with its own. `catches_up_iff` says when the follower reaches the leader's
log with every acknowledgement positive: its term is not above that of the
first entry it misses, and its state machine refuses none of them.
-/

namespace FerroDruid.Cluster

open FerroDruid.Lib ReplicationEngine List

variable (deps : Deps)

/-! ## Rounds of replay -/

/-- The messages `build_replay_actions` has for one follower. -/
def actionsFor (leader : ReplicationEngine) (follower_id : NodeId) : List ReplicationMessage :=
  (leader.buildReplayActions.filter fun a => a.1 = follower_id).map Prod.snd

/-- The follower takes the messages in order; the `n`-th one runs in `env n`. -/
def deliverAll (sender : NodeId) : (Nat → StepEnv) → ReplicationEngine → List ReplicationMessage →
    List ReplicationMessage × ReplicationEngine
  | _, e, [] => ([], e)
  | env, e, m :: ms =>
    let (out, e') := receive deps (env 0) e sender m
    let (outs, e'') := deliverAll sender (fun n => env (n + 1)) e' ms
    (out.map Prod.snd ++ outs, e'')

def takeAcks (env : StepEnv) (sender : NodeId) (leader : ReplicationEngine) (acks : List ReplicationMessage) :
    ReplicationEngine :=
  acks.foldl (fun l a => (receive deps env l sender a).2) leader

/-- `n` rounds: every acknowledgement sent, the leader and the follower. -/
def catchUp : Nat → (Nat → StepEnv) → ReplicationEngine → ReplicationEngine →
    List ReplicationMessage × ReplicationEngine × ReplicationEngine
  | 0, _, leader, follower => ([], leader, follower)
  | n + 1, env, leader, follower =>
    let msgs := actionsFor leader follower.nodeId
    let (acks, follower') := deliverAll deps leader.nodeId env follower msgs
    let leader' := takeAcks deps (env msgs.length) follower.nodeId leader acks
    let (more, l, f) := catchUp n (fun k => env (k + msgs.length)) leader' follower'
    (acks ++ more, l, f)

def acksSuccess : ReplicationMessage → Bool
  | .ReplicateAck _ _ success _ => success
  | _ => false

/-- After some rounds nothing is left to replay, every entry was acknowledged
with success, and the follower has the leader's log. -/
def CatchesUp (env : Nat → StepEnv) (leader follower : ReplicationEngine) : Prop :=
  ∃ n, (∀ a ∈ (catchUp deps n env leader follower).1, acksSuccess a) ∧
    actionsFor (catchUp deps n env leader follower).2.1 follower.nodeId = [] ∧
    (catchUp deps n env leader follower).2.2.log = leader.log

/-! ## What the leader sends -/

/-- The scan of `build_replay_batch` over new entries finds the term of each. -/
theorem filterMap_indexed (pre : List Nat) (es : Entries) (start : Nat) (hs : start ≤ pre.length + 1) :
    ((indexed pre.length es).map Prod.snd).filterMap (fun x : Nat × ClusterCommand =>
      if x.1 < start then none else ((pre ++ es.map Prod.fst)[x.1 - 1]?).map fun term => (term, x.1, x.2)) =
      indexed pre.length es := by
  induction es generalizing pre with
  | nil => rfl
  | cons e es ih =>
    have h := ih (pre ++ [e.1]) (by simp; omega)
    rw [length_append, length_singleton, append_assoc, singleton_append] at h
    have hget : (pre ++ e.1 :: es.map Prod.fst)[pre.length]? = some e.1 := by simp
    have hlt : ¬ pre.length + 1 < start := by omega
    simp only [indexed, map_cons, filterMap_cons, hlt, if_false, Nat.add_sub_cancel, hget, Option.map_some, h]

/-- The scan finds nothing in the commands of the follower. -/
theorem filterMap_below {l : List (Nat × ClusterCommand)} {k : Nat} (h : ∀ e ∈ l, e.1 ≤ k) (terms : List Nat) :
    l.filterMap (fun x : Nat × ClusterCommand =>
      if x.1 < k + 1 then none else (terms[x.1 - 1]?).map fun term => (term, x.1, x.2)) = [] := by
  rw [filterMap_eq_nil_iff]
  intro e he
  rw [if_pos (Nat.lt_succ_of_le (h e he))]

/-- The leader's log is the follower's continued by `es`, and the leader's
cursor stands right after the follower's last entry. -/
structure Behind (leader follower : ReplicationEngine) (es : Entries) : Prop where
  leads : leader.role = .Leader
  peer : follower.nodeId ∈ leader.config.peers
  tight : follower.log.Tight
  log : leader.log = follower.log.pushAll es
  cursor : leader.nextIndexFor follower.nodeId = some (follower.last_index + 1)

def replayMessage (e : Nat × Nat × ClusterCommand) : ReplicationMessage := .ReplicateCommand e.1 e.2.1 e.2.2

variable {leader follower : ReplicationEngine}

theorem Behind.last_index {es : Entries} (h : Behind leader follower es) :
    leader.last_index = follower.last_index + es.length := by
  have hl := congrArg LogView.last_index h.log
  rwa [pushAll_last_index] at hl

theorem buildReplayBatch_behind {es : Entries} (h : Behind leader follower es) :
    leader.buildReplayBatch follower.nodeId = indexed follower.last_index (es.take MAX_REPLAY_BATCH) := by
  have hlast := h.last_index
  have hterms : leader.log_terms = follower.log_terms ++ es.map Prod.fst := by
    have := congrArg LogView.log_terms h.log
    rwa [pushAll_log_terms] at this
  have hcmds : leader.command_log = follower.command_log ++ (indexed follower.last_index es).map Prod.snd := by
    have := congrArg LogView.command_log h.log
    rwa [pushAll_command_log] at this
  have hlen : follower.log_terms.length = follower.last_index := h.tight.terms
  unfold buildReplayBatch
  simp only [h.cursor, Option.getD_some]
  split
  · next hgt =>
    have : es = [] := by
      rw [← length_eq_zero_iff]
      omega
    rw [this]
    rfl
  · have hnew := filterMap_indexed follower.log_terms es (follower.last_index + 1) (by omega)
    rw [hlen] at hnew
    have hbound : ∀ e ∈ follower.command_log, e.1 ≤ follower.last_index := h.tight.bound
    rw [hcmds, hterms, filterMap_append, filterMap_below hbound, nil_append, hnew, take_indexed]

theorem filter_flatMap_singleton {κ α : Type} [DecidableEq κ] (f : κ → List α) (k : κ) :
    ∀ ks : List κ, ks.Nodup → k ∈ ks →
      ((ks.flatMap fun x => (f x).map fun a => (x, a)).filter fun p => p.1 = k).map Prod.snd = f k
  | [], _, hk => absurd hk not_mem_nil
  | x :: ks, hn, hk => by
    have hself : ∀ l : List α, ((l.map fun a => (x, a)).filter fun p => p.1 = k).map Prod.snd = if x = k then l else [] := by
      intro l
      by_cases hx : x = k
      · simp [hx, filter_map, Function.comp_def]
      · simp [hx, filter_map, Function.comp_def]
    rw [flatMap_cons, filter_append, map_append, hself]
    obtain ⟨hx, hn⟩ := nodup_cons.1 hn
    by_cases hxk : x = k
    · subst hxk
      have hrest : (ks.flatMap fun y => (f y).map fun a => (y, a)).filter (fun p => p.1 = x) = [] := by
        rw [filter_eq_nil_iff]
        intro p hp
        obtain ⟨y, hy, hp⟩ := mem_flatMap.1 hp
        obtain ⟨a, -, rfl⟩ := mem_map.1 hp
        have hne : y ≠ x := fun he => hx (he ▸ hy)
        simpa using hne
      rw [if_pos rfl, hrest, map_nil, append_nil]
    · have hk : k ∈ ks := by
        rcases mem_cons.1 hk with rfl | hk
        · exact absurd rfl hxk
        · exact hk
      rw [if_neg hxk, nil_append, filter_flatMap_singleton f k ks hn hk]

theorem actionsFor_behind {es : Entries} (h : Behind leader follower es) :
    actionsFor leader follower.nodeId =
      (indexed follower.last_index (es.take MAX_REPLAY_BATCH)).map replayMessage := by
  have hkey : follower.nodeId ∈ leader.next_index.keys := by
    rw [← AList.mem_keys, ← AList.lookup_isSome]
    have hc := h.cursor
    unfold nextIndexFor at hc
    rw [hc]
    rfl
  have hbatch := buildReplayBatch_behind h
  unfold actionsFor buildReplayActions
  split
  · next h0 =>
    have hlast := h.last_index
    have hl0 : leader.last_index = 0 := by
      rcases h0 with h0 | h0
      · simp [isLeader, h.leads] at h0
      · exact h0
    have : es = [] := by
      rw [← length_eq_zero_iff]
      omega
    rw [this]
    rfl
  · have hm := filter_flatMap_singleton (fun f => (leader.buildReplayBatch f).map replayMessage) follower.nodeId
      leader.next_index.keys leader.next_index.nodupKeys hkey
    rw [← hbatch, ← hm]
    simp only [map_map, Function.comp_def, replayMessage]

/-! ## What the follower takes -/

/-- Each entry is not older than the follower's term, which it then becomes,
and the state machine accepts its command. -/
def Takes (chrono : Chrono) : (Nat → ApplyEnv) → Nat → ClusterManager → Entries → Prop
  | _, _, _, [] => True
  | env, term, m, (t, c) :: es => term ≤ t ∧ (apply chrono (env 0) m c).1.toBool = true ∧
      Takes chrono (fun n => env (n + 1)) t (apply chrono (env 0) m c).2 es

/-- The term of a follower after it took the entries. -/
def lastTerm (term : Nat) (es : Entries) : Nat := es.foldl (fun _ e => e.1) term

/-- The state machine after the commands of the entries. -/
def machineAfter (chrono : Chrono) (env : Nat → ApplyEnv) (m : ClusterManager) (es : Entries) : ClusterManager :=
  (applyAll chrono (es.map Prod.snd) env m).2

/-- What the follower answers to an entry it took. -/
def goodAck (follower_id : NodeId) (e : Nat × Nat × ClusterCommand) : ReplicationMessage :=
  .ReplicateAck follower_id e.2.1 true (some e.2.1)

theorem takes_append (chrono : Chrono) (env : Nat → ApplyEnv) (term : Nat) (m : ClusterManager) (es fs : Entries) :
    Takes chrono env term m (es ++ fs) ↔ Takes chrono env term m es ∧
      Takes chrono (fun n => env (n + es.length)) (lastTerm term es) (machineAfter chrono env m es) fs := by
  induction es generalizing env term m with
  | nil => simp [Takes, lastTerm, machineAfter, applyAll]
  | cons e es ih =>
    have h := ih (fun n => env (n + 1)) e.1 (apply chrono (env 0) m e.2).2
    simp only [cons_append, Takes, h, and_assoc, length_cons, Nat.add_assoc]
    rfl

/-- With terms in order only the first one is compared with the follower's. -/
theorem takes_iff (chrono : Chrono) (env : Nat → ApplyEnv) (term : Nat) (m : ClusterManager) (es : Entries)
    (hs : (es.map Prod.fst).Pairwise (· ≤ ·)) :
    Takes chrono env term m es ↔ (∀ e ∈ es.head?, term ≤ e.1) ∧
      ∀ r ∈ (applyAll chrono (es.map Prod.snd) env m).1, r.toBool = true := by
  induction es generalizing env term m with
  | nil => simp [Takes, applyAll]
  | cons e es ih =>
    rw [map_cons, pairwise_cons] at hs
    have hhead : ∀ e' ∈ es.head?, e.1 ≤ e'.1 := by
      intro e' he'
      exact hs.1 e'.1 (mem_map_of_mem (mem_of_mem_head? he'))
    have h := ih (fun n => env (n + 1)) e.1 (apply chrono (env 0) m e.2).2 hs.2
    simp only [Takes, h, head?_cons, Option.mem_some_iff, map_cons, applyAll, forall_mem_cons]
    constructor
    · rintro ⟨ht, hok, -, hrest⟩
      exact ⟨fun _ he => he ▸ ht, hok, hrest⟩
    · rintro ⟨ht, hok, hrest⟩
      exact ⟨ht e rfl, hok, hhead, hrest⟩

/-- The next entry: accepted when it is not stale and the state machine takes
it. -/
theorem receiveCommand_next (env : StepEnv) (e : ReplicationEngine) (t : Nat) (c : ClusterCommand) :
    ((receiveCommand deps env e t (e.last_index + 1) c).1.toBool = true ↔
      e.current_term ≤ t ∧ (apply deps.chrono env.apply e.cluster_manager c).1.toBool = true) ∧
    (e.current_term ≤ t → (receiveCommand deps env e t (e.last_index + 1) c).2.current_term = t ∧
      (receiveCommand deps env e t (e.last_index + 1) c).2.cluster_manager =
        (apply deps.chrono env.apply e.cluster_manager c).2) := by
  unfold receiveCommand
  by_cases ht : t < e.current_term
  · rw [if_pos ht]
    exact ⟨⟨nofun, fun h => absurd h.1 (not_le.2 ht)⟩, fun h => absurd h (not_le.2 ht)⟩
  have hle : ¬ e.last_index + 1 ≤ e.last_index := by omega
  have hgap : ¬ e.last_index + 1 > e.last_index + 1 := by omega
  simp only [ht, hle, hgap, if_false, not_lt.1 ht, true_and, forall_const]
  cases ha : (apply deps.chrono env.apply e.cluster_manager c).1 with
  | error err =>
    simp only [appendEntry, applyCommand, persistAppend, ha, Except.toBool, Bool.false_eq_true, and_self]
  | ok r =>
    simp only [appendEntry, applyCommand, persistAppend, ha, Except.toBool, resetElectionTimer, and_self]

theorem deliverAll_takes (sender : NodeId) (env : Nat → StepEnv) (f : ReplicationEngine) (es : Entries) :
    ((∀ a ∈ (deliverAll deps sender env f ((indexed f.last_index es).map replayMessage)).1, acksSuccess a = true) ↔
      Takes deps.chrono (fun n => (env n).apply) f.current_term f.cluster_manager es) := by
  induction es generalizing env f with
  | nil => simp [indexed, deliverAll, Takes]
  | cons e es ih =>
    obtain ⟨hok, hnext⟩ := receiveCommand_next deps (env 0) f e.1 e.2
    have hlog := receiveCommand_log deps (env 0) f e.1 (f.last_index + 1) e.2
    simp only [indexed, map_cons, replayMessage, deliverAll, receive, processReplicateCommand, map_nil,
      singleton_append, forall_mem_cons, acksSuccess, Takes, hok, and_assoc]
    refine and_congr_right fun ht => and_congr_right fun _ => ?_
    rw [if_pos ⟨ht, rfl⟩] at hlog
    have hlast : (receiveCommand deps (env 0) f e.1 (f.last_index + 1) e.2).2.last_index = f.last_index + 1 :=
      congrArg LogView.last_index hlog
    have h := ih (fun n => env (n + 1)) (receiveCommand deps (env 0) f e.1 (f.last_index + 1) e.2).2
    rw [hlast, (hnext ht).1, (hnext ht).2] at h
    exact h

/-- The follower and its answers after entries it took. -/
theorem deliverAll_taken (sender : NodeId) (env : Nat → StepEnv) (f : ReplicationEngine) (es : Entries)
    (h : Takes deps.chrono (fun n => (env n).apply) f.current_term f.cluster_manager es) :
    (deliverAll deps sender env f ((indexed f.last_index es).map replayMessage)).1 =
        (indexed f.last_index es).map (goodAck f.nodeId) ∧
      (deliverAll deps sender env f ((indexed f.last_index es).map replayMessage)).2.log = f.log.pushAll es ∧
      (deliverAll deps sender env f ((indexed f.last_index es).map replayMessage)).2.config = f.config ∧
      (deliverAll deps sender env f ((indexed f.last_index es).map replayMessage)).2.current_term =
        lastTerm f.current_term es ∧
      (deliverAll deps sender env f ((indexed f.last_index es).map replayMessage)).2.cluster_manager =
        machineAfter deps.chrono (fun n => (env n).apply) f.cluster_manager es := by
  induction es generalizing env f with
  | nil => exact ⟨rfl, rfl, rfl, rfl, rfl⟩
  | cons e es ih =>
    obtain ⟨ht, hc, hrest⟩ := h
    obtain ⟨hok, hnext⟩ := receiveCommand_next deps (env 0) f e.1 e.2
    obtain ⟨hterm, hmach⟩ := hnext ht
    have hlog := receiveCommand_log deps (env 0) f e.1 (f.last_index + 1) e.2
    have hconf := receiveCommand_config deps (env 0) f e.1 (f.last_index + 1) e.2
    rw [if_pos ⟨ht, rfl⟩] at hlog
    have hlast : (receiveCommand deps (env 0) f e.1 (f.last_index + 1) e.2).2.last_index = f.last_index + 1 :=
      congrArg LogView.last_index hlog
    have h := ih (fun n => env (n + 1)) (receiveCommand deps (env 0) f e.1 (f.last_index + 1) e.2).2
      (by rw [hterm, hmach]; exact hrest)
    rw [hlast, hterm, hmach, hlog, hconf] at h
    obtain ⟨h1, h2, h3, h4, h5⟩ := h
    have hid : (receiveCommand deps (env 0) f e.1 (f.last_index + 1) e.2).2.nodeId = f.nodeId := by
      simp only [nodeId, hconf]
    rw [hid] at h1
    refine ⟨?_, h2, h3, h4, h5⟩
    simp only [indexed, map_cons, replayMessage, deliverAll, receive, processReplicateCommand, map_nil,
      singleton_append]
    rw [hlast, hok.2 ⟨ht, hc⟩, hconf]
    exact congrArg _ h1

/-! ## One round -/

/-- A positive acknowledgement of the entry at the cursor moves the cursor. -/
theorem receiveReplicateAck_cursor {l : ReplicationEngine} {f : NodeId} {k : Nat} (hp : f ∈ l.config.peers)
    (hc : l.nextIndexFor f = some (k + 1)) :
    (receiveReplicateAck l f (k + 1) true (some (k + 1))).nextIndexFor f = some (k + 2) := by
  unfold nextIndexFor at hc
  unfold receiveReplicateAck nextIndexFor HashMap.getD
  simp only [hp, not_true_eq_false, if_false, if_true, hc, AList.lookup_insert, Option.getD_some]
  congr 1
  omega

theorem receiveReplicateAck_frame (l : ReplicationEngine) (f : NodeId) (k : Nat) (success : Bool) (hint : Option Nat) :
    (receiveReplicateAck l f k success hint).role = l.role ∧
      (receiveReplicateAck l f k success hint).config = l.config ∧
      (receiveReplicateAck l f k success hint).log = l.log := by
  unfold receiveReplicateAck
  split_ifs <;> exact ⟨rfl, rfl, rfl⟩

theorem takeAcks_good (env : StepEnv) (f sender : NodeId) (l : ReplicationEngine) (k : Nat) (es : Entries)
    (hp : f ∈ l.config.peers) (hc : l.nextIndexFor f = some (k + 1)) :
    (takeAcks deps env sender l ((indexed k es).map (goodAck f))).role = l.role ∧
      (takeAcks deps env sender l ((indexed k es).map (goodAck f))).config = l.config ∧
      (takeAcks deps env sender l ((indexed k es).map (goodAck f))).log = l.log ∧
      (takeAcks deps env sender l ((indexed k es).map (goodAck f))).nextIndexFor f = some (k + es.length + 1) := by
  induction es generalizing l k with
  | nil => exact ⟨rfl, rfl, rfl, hc⟩
  | cons e es ih =>
    obtain ⟨hrole, hconf, hlog⟩ := receiveReplicateAck_frame l f (k + 1) true (some (k + 1))
    have h := ih (receiveReplicateAck l f (k + 1) true (some (k + 1))) (k + 1) (by rw [hconf]; exact hp)
      (receiveReplicateAck_cursor hp hc)
    rw [hrole, hconf, hlog] at h
    obtain ⟨h1, h2, h3, h4⟩ := h
    have hk : k + (e :: es).length + 1 = k + 1 + es.length + 1 := by
      rw [length_cons]
      omega
    rw [hk]
    exact ⟨h1, h2, h3, h4⟩

/-- A round the follower takes leaves it behind by what the batch left out. -/
theorem behind_round {env : Nat → StepEnv} {es : Entries} (h : Behind leader follower es)
    (ht : Takes deps.chrono (fun n => (env n).apply) follower.current_term follower.cluster_manager
      (es.take MAX_REPLAY_BATCH)) :
    let r := deliverAll deps leader.nodeId env follower (actionsFor leader follower.nodeId)
    let leader' := takeAcks deps (env (actionsFor leader follower.nodeId).length) follower.nodeId leader r.1
    Behind leader' r.2 (es.drop MAX_REPLAY_BATCH) ∧ r.2.nodeId = follower.nodeId ∧ leader'.log = leader.log ∧
      r.2.current_term = lastTerm follower.current_term (es.take MAX_REPLAY_BATCH) ∧
      r.2.cluster_manager =
        machineAfter deps.chrono (fun n => (env n).apply) follower.cluster_manager (es.take MAX_REPLAY_BATCH) := by
  intro r leader'
  obtain ⟨hacks, hlog, hconf, hterm, hmach⟩ :=
    deliverAll_taken deps leader.nodeId env follower (es.take MAX_REPLAY_BATCH) ht
  rw [← actionsFor_behind h] at hacks hlog hconf hterm hmach
  obtain ⟨h1, h2, h3, h4⟩ := takeAcks_good deps (env (actionsFor leader follower.nodeId).length) follower.nodeId
    follower.nodeId leader follower.last_index (es.take MAX_REPLAY_BATCH) h.peer h.cursor
  rw [← hacks] at h1 h2 h3 h4
  have hid : r.2.nodeId = follower.nodeId := congrArg ReplicationConfig.node_id hconf
  have hlast : r.2.last_index = follower.last_index + (es.take MAX_REPLAY_BATCH).length := by
    have hl := congrArg LogView.last_index hlog
    rwa [pushAll_last_index] at hl
  refine ⟨⟨h1.trans h.leads, ?_, ?_, ?_, ?_⟩, hid, h3, hterm, hmach⟩
  · rw [hid]
    exact h2 ▸ h.peer
  · rw [hlog]
    exact pushAll_tight h.tight _
  · rw [hlog, ← pushAll_append, take_append_drop]
    exact h3.trans h.log
  · rw [hid, hlast]
    exact h4

/-! ## All rounds -/

/-- Some number of rounds succeeds exactly when the follower takes what it
misses. The induction is on the rounds; each takes a batch off the front. -/
theorem catchesUp_iff_takes (env : Nat → StepEnv) (leader follower : ReplicationEngine) (es : Entries)
    (h : Behind leader follower es) :
    CatchesUp deps env leader follower ↔
      Takes deps.chrono (fun n => (env n).apply) follower.current_term follower.cluster_manager es := by
  constructor
  · rintro ⟨n, hn⟩
    induction n generalizing env leader follower es with
    | zero =>
      have hempty := hn.2.1
      simp only [catchUp] at hempty
      rw [actionsFor_behind h, map_eq_nil_iff, ← length_eq_zero_iff, length_indexed, length_take] at hempty
      have hnil : es = [] := by
        rw [← length_eq_zero_iff]
        simp only [MAX_REPLAY_BATCH] at hempty
        omega
      rw [hnil]
      trivial
    | succ n ih =>
      simp only [catchUp, forall_mem_append] at hn
      obtain ⟨⟨hacks, hmore⟩, hempty, hlog⟩ := hn
      have hlen : (actionsFor leader follower.nodeId).length = (es.take MAX_REPLAY_BATCH).length := by
        rw [actionsFor_behind h, length_map, length_indexed]
      have htake := hacks
      rw [actionsFor_behind h, deliverAll_takes] at htake
      obtain ⟨hb, hid, hl, hterm, hmach⟩ := behind_round deps h htake
      have hrest := ih _ _ _ _ hb ⟨hmore, by rw [hid]; exact hempty, hlog.trans hl.symm⟩
      rw [hterm, hmach, hlen] at hrest
      rw [← take_append_drop MAX_REPLAY_BATCH es, takes_append]
      exact ⟨htake, hrest⟩
  · suffices hs : ∀ n, es.length ≤ n → Takes deps.chrono (fun n => (env n).apply) follower.current_term
        follower.cluster_manager es → (∀ a ∈ (catchUp deps n env leader follower).1, acksSuccess a = true) ∧
          actionsFor (catchUp deps n env leader follower).2.1 follower.nodeId = [] ∧
          (catchUp deps n env leader follower).2.2.log = leader.log from
      fun ht => ⟨es.length, hs es.length le_rfl ht⟩
    intro n
    induction n generalizing env leader follower es with
    | zero =>
      intro hlen _
      have hnil : es = [] := length_eq_zero_iff.1 (Nat.le_zero.1 hlen)
      subst hnil
      refine ⟨fun a ha => absurd ha not_mem_nil, ?_, h.log.symm⟩
      simp only [catchUp]
      rw [actionsFor_behind h]
      rfl
    | succ n ih =>
      intro hlen ht
      have htake := ht
      rw [← take_append_drop MAX_REPLAY_BATCH es, takes_append] at htake
      obtain ⟨hfirst, hrest⟩ := htake
      have hacks := (deliverAll_takes deps leader.nodeId env follower (es.take MAX_REPLAY_BATCH)).2 hfirst
      have hcount : (actionsFor leader follower.nodeId).length = (es.take MAX_REPLAY_BATCH).length := by
        rw [actionsFor_behind h, length_map, length_indexed]
      rw [← actionsFor_behind h] at hacks
      obtain ⟨hb, hid, hl, hterm, hmach⟩ := behind_round deps h hfirst
      rw [← hterm, ← hmach, ← hcount] at hrest
      have hleft : (es.drop MAX_REPLAY_BATCH).length ≤ n := by
        rw [length_drop]
        simp only [MAX_REPLAY_BATCH]
        omega
      obtain ⟨h1, h2, h3⟩ := ih (fun k => env (k + (actionsFor leader follower.nodeId).length)) _ _ _ hb hleft hrest
      simp only [catchUp, forall_mem_append]
      rw [hid] at h2
      exact ⟨⟨hacks, h1⟩, h2, h3.trans hl⟩

/-- A follower whose log is a prefix of the leader's catches up exactly when its
term is not above that of the first entry it misses and its state machine
accepts every command it misses. -/
theorem catches_up_iff (env : Nat → StepEnv) (leader follower : ReplicationEngine) (es : Entries)
    (h : Behind leader follower es) (hs : leader.log_terms.Pairwise (· ≤ ·)) :
    CatchesUp deps env leader follower ↔ (∀ e ∈ es.head?, follower.current_term ≤ e.1) ∧
      ∀ r ∈ (applyAll deps.chrono (es.map Prod.snd) (fun n => (env n).apply) follower.cluster_manager).1,
        r.toBool = true := by
  have hterms : leader.log_terms = follower.log_terms ++ es.map Prod.fst := by
    have hl := congrArg LogView.log_terms h.log
    rwa [pushAll_log_terms] at hl
  rw [hterms, pairwise_append] at hs
  rw [catchesUp_iff_takes deps env leader follower es h, takes_iff deps.chrono _ _ _ es hs.2.1]

/-- Node `n1` wins term 1 and takes two commands that reach nobody. -/
def leaderOfTwo : ReplicationEngine :=
  [NodeInput.act .armElection, .receive stillEnv "n2" (.VoteResponse "n2" 1 true),
    .submit stillEnv (.ReleaseTaskLock "t1"), .submit stillEnv (.ReleaseTaskLock "t2")].foldl (nodeNext bareDeps)
    (ReplicationEngine.new stillEnv (memberConfig "n1" ["n2", "n3"]) (memberManager "n1"))

def freshFollower : ReplicationEngine :=
  ReplicationEngine.new stillEnv (memberConfig "n2" ["n1", "n3"]) (memberManager "n2")

theorem catches_up_fresh :
    Behind leaderOfTwo freshFollower [(1, .ReleaseTaskLock "t1"), (1, .ReleaseTaskLock "t2")] ∧
      CatchesUp bareDeps (fun _ => stillEnv) leaderOfTwo freshFollower := by
  have h : Behind leaderOfTwo freshFollower [(1, .ReleaseTaskLock "t1"), (1, .ReleaseTaskLock "t2")] :=
    ⟨by decide, by decide, ⟨by decide, by decide⟩, by decide, by decide⟩
  exact ⟨h, (catches_up_iff bareDeps (fun _ => stillEnv) leaderOfTwo freshFollower _ h (by decide)).2
    ⟨by decide, by decide⟩⟩

/-- The same leader is elected once more, for term 2, and learns that `n2` has
no entry. -/
def leaderAgain : ReplicationEngine :=
  [NodeInput.act .armElection, .receive stillEnv "n3" (.VoteResponse "n3" 2 true),
    .receive stillEnv "n2" (.ReplicateAck "n2" 3 false (some 0))].foldl (nodeNext bareDeps) leaderOfTwo

/-- `n2` has heard a heartbeat of term 2. -/
def warnedFollower : ReplicationEngine :=
  nodeNext bareDeps freshFollower (.receive stillEnv "n1" (.Heartbeat "n1" 2))

/-- No round of replay takes a follower that knows the new term past an entry
of the old one. -/
theorem never_catches_up :
    Behind leaderAgain warnedFollower [(1, .ReleaseTaskLock "t1"), (1, .ReleaseTaskLock "t2")] ∧
      leaderAgain.log_terms.Pairwise (· ≤ ·) ∧ (∀ t ∈ leaderAgain.log_terms, t ≤ leaderAgain.current_term) ∧
      warnedFollower.current_term ≤ leaderAgain.current_term ∧
      ¬ CatchesUp bareDeps (fun _ => stillEnv) leaderAgain warnedFollower := by
  have h : Behind leaderAgain warnedFollower [(1, .ReleaseTaskLock "t1"), (1, .ReleaseTaskLock "t2")] :=
    ⟨by decide, by decide, ⟨by decide, by decide⟩, by decide, by decide⟩
  refine ⟨h, by decide, by decide, by decide, ?_⟩
  rw [catchesUp_iff_takes bareDeps _ _ _ _ h]
  intro ht
  exact absurd ht.1 (by decide)

end FerroDruid.Cluster
