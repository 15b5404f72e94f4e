import FerroDruid.Lib.Quorum
import FerroDruid.Cluster.Voting
/-!
# What a pre-vote round won means

A `Campaign` is one node taking ticks, heartbeats, vote requests, replicated
commands and pre-vote responses, with what it was told since its current round
began. A round is meant to be void once a leader was heard or the term moved on.
The engine does not look: a round that is void still collects grants, and
`tick` starts a real election when it has its majority, at whatever term the
node is at by then. `preVote_sound` is what holds when no grant is counted into
a void round.
-/

namespace FerroDruid.Cluster

open FerroDruid.Lib ReplicationEngine

variable (deps : Deps)

/-! ## Campaigns -/

/-- What a campaigning node takes. A response answers the request of some round,
and a legacy peer leaves the round id out of it, which is read as 0. -/
inductive CampaignEvent where
  | tick (env : StepEnv)
  | heartbeat (env : StepEnv) (sender leader_id : NodeId) (term : Nat)
  | voteRequest (env : StepEnv) (sender candidate_id : NodeId) (term : Nat)
  | command (env : StepEnv) (sender : NodeId) (term index : Nat) (cmd : ClusterCommand)
  | preVoteResponse (env : StepEnv) (sender voter_id : NodeId) (round : PreVoteRound) (granted legacy : Bool)

/-- The round id a response carries. -/
def wireRoundId (round : PreVoteRound) (legacy : Bool) : Nat := if legacy then 0 else round.round_id

def CampaignEvent.input : CampaignEvent → NodeInput
  | .tick env => .act (.tick env)
  | .heartbeat env sender leader_id term => .receive env sender (.Heartbeat leader_id term)
  | .voteRequest env sender candidate_id term => .receive env sender (.VoteRequest candidate_id term)
  | .command env sender term index cmd => .receive env sender (.ReplicateCommand term index cmd)
  | .preVoteResponse env sender voter_id round granted legacy =>
    .receive env sender
      (.RequestPreVoteResponse voter_id round.proposed_term granted (wireRoundId round legacy))

/-- The command is neither behind a gap nor at odds with the term stored at its index. -/
def entryTaken (e : ReplicationEngine) (term index : Nat) : Bool :=
  decide (e.current_term ≤ term) && decide (index ≤ e.last_index + 1) &&
    decide (index ≤ e.last_index → ∀ stored ∈ e.storedTerm index, stored = term ∨ stored = 0)

/-- A node and what it was told since its current round began. -/
structure Campaign where
  engine : ReplicationEngine
  /-- Who granted a pre-vote, and in which round. -/
  grants : List (NodeId × PreVoteRound) := []
  /-- A heartbeat or an entry was accepted. -/
  contact : Bool := false

namespace Campaign

/-- A pre-vote request that goes out begins a round, of which nothing is known yet. -/
def afterTick (s : Campaign) (engine : ReplicationEngine) : TickAction → Campaign
  | .BroadcastPreVoteRequest _ _ _ => { engine }
  | _ => { s with engine }

def step (s : Campaign) (ev : CampaignEvent) : Campaign :=
  let engine := nodeNext deps s.engine ev.input
  match ev with
  | .tick env => s.afterTick engine (tick env s.engine).1
  | .heartbeat _ _ _ term => { s with engine, contact := s.contact || decide (s.engine.current_term ≤ term) }
  | .voteRequest _ _ _ _ => { s with engine }
  | .command _ _ term index _ => { s with engine, contact := s.contact || entryTaken s.engine term index }
  | .preVoteResponse _ _ voter_id round granted _ =>
    { s with engine, grants := if granted then (voter_id, round) :: s.grants else s.grants }

/-- The node and its peers. -/
def members (s : Campaign) : Finset NodeId := insert s.engine.config.node_id s.engine.config.peers.toFinset

/-- A majority of the members granted a pre-vote for `term` in the current round,
and no leader was heard since it began. -/
def PreVoted (s : Campaign) (term : Nat) : Prop :=
  s.contact = false ∧ ∃ Q, Quorum s.members Q ∧
    ∀ v ∈ Q, v = s.engine.config.node_id ∨ (v, ⟨term, s.engine.pre_vote_round_id⟩) ∈ s.grants

/-- A real election is only started after a pre-vote. -/
def TickSound (s : Campaign) : CampaignEvent → Prop
  | .tick env => ∀ candidate_id term,
    (tick env s.engine).1 = .BroadcastVoteRequest candidate_id term → s.PreVoted term
  | _ => True

/-- A leader was heard in the round, or its term is no longer the next one. -/
def Void (s : Campaign) (round : PreVoteRound) : Prop :=
  s.contact = true ∨ round.proposed_term ≠ succU64 s.engine.current_term

/-- The message makes a round in flight void. -/
def voids (e : ReplicationEngine) : CampaignEvent → Bool
  | .heartbeat _ _ _ term => decide (e.current_term ≤ term)
  | .voteRequest _ _ _ term => decide (e.current_term < term)
  | .command _ _ term index _ => decide (e.current_term < term) || entryTaken e term index
  | _ => false

/-- The engine counts the response. -/
def counts (e : ReplicationEngine) (voter_id : NodeId) (round : PreVoteRound) (granted legacy : Bool) : Bool :=
  granted && e.isKnown voter_id && e.acceptRound round.proposed_term (wireRoundId round legacy)

/-- No round becomes void with its majority already there, and a response that is
counted while a round is in flight answers that round, which is not void. -/
def Orderly (s : Campaign) : CampaignEvent → Prop
  | .preVoteResponse _ _ voter_id round granted legacy =>
    counts s.engine voter_id round granted legacy →
      ∀ r ∈ s.engine.pre_vote_in_flight, round = r ∧ ¬ s.Void r
  | ev => voids s.engine ev → ¬ s.engine.roundWon

instance (s : Campaign) (round : PreVoteRound) : Decidable (s.Void round) :=
  inferInstanceAs (Decidable (_ ∨ _))

instance : (s : Campaign) → (ev : CampaignEvent) → Decidable (s.Orderly ev)
  | _, .tick _ | _, .heartbeat _ _ _ _ | _, .voteRequest _ _ _ _ | _, .command _ _ _ _ _ =>
    inferInstanceAs (Decidable (_ → _))
  | _, .preVoteResponse _ _ _ _ _ _ => inferInstanceAs (Decidable (_ → _))

end Campaign

/-! ## The canvass -/

/-- The part of an engine that pre-vote rounds read and write, but for the term. -/
structure Canvass where
  config : ReplicationConfig
  pre_votes_received : HashMap Nat (Finset NodeId)
  pre_vote_in_flight : Option PreVoteRound
  pre_vote_round_id : Nat

def ReplicationEngine.canvass (e : ReplicationEngine) : Canvass where
  config := e.config
  pre_votes_received := e.pre_votes_received
  pre_vote_in_flight := e.pre_vote_in_flight
  pre_vote_round_id := e.pre_vote_round_id

def Canvass.tally (c : Canvass) : Finset NodeId := c.pre_votes_received.getD c.pre_vote_round_id ∅

variable {deps} (env : StepEnv) (e : ReplicationEngine)

@[simp] theorem receiveHeartbeat_canvass (l : NodeId) (t : Nat) :
    (receiveHeartbeat env e l t).canvass = e.canvass := by
  unfold receiveHeartbeat
  split <;> rfl

@[simp] theorem receiveVoteRequest_canvass (c : NodeId) (t : Nat) :
    (receiveVoteRequest e c t).2.canvass = e.canvass := by
  simp only [receiveVoteRequest]
  split_ifs <;> rfl

@[simp] theorem receiveCommand_canvass (term index : Nat) (cmd : ClusterCommand) :
    (receiveCommand deps env e term index cmd).2.canvass = e.canvass := by
  simp only [receiveCommand]
  split
  · rfl
  split
  · split
    · split <;> rfl
    · rfl
  · split
    · rfl
    · split <;> rfl

theorem recordPreVote_cases (v : NodeId) (t r : Nat) :
    (recordPreVote e v t r).2 = e ∨ (e.isKnown v ∧ e.acceptRound t r ∧
      (recordPreVote e v t r).2 = { e with
        pre_votes_received := AList.insert e.pre_vote_round_id (insert v e.canvass.tally) e.pre_votes_received }) := by
  unfold recordPreVote
  split_ifs with hknown haccept
  · exact .inr ⟨hknown, haccept, rfl⟩
  · exact .inl rfl
  · exact .inl rfl

/-- All a tick can do to the canvass, with its action. -/
inductive TickOutcome (e : ReplicationEngine) : TickAction → ReplicationEngine → Prop
  /-- No round is in flight any more. -/
  | cleared {a : TickAction} {e' : ReplicationEngine} (hf : e'.pre_vote_in_flight = none)
      (ha : ∀ c t r, a ≠ .BroadcastPreVoteRequest c t r) (hw : ∀ c t, a ≠ .BroadcastVoteRequest c t) : TickOutcome e a e'
  | waits {e' : ReplicationEngine} (hc : e'.canvass = e.canvass) (ht : e'.current_term = e.current_term) :
      TickOutcome e .Idle e'
  | elects {e' : ReplicationEngine} (hw : e.roundWon) (hf : e'.pre_vote_in_flight = none) :
      TickOutcome e (.BroadcastVoteRequest e.config.node_id (succU64 e.current_term)) e'
  | opens {e' : ReplicationEngine} (r : PreVoteRound) (hf : e'.pre_vote_in_flight = some r)
      (hp : r.proposed_term = succU64 e'.current_term) (hr : r.round_id = e'.pre_vote_round_id)
      (hv : e'.canvass.tally = {e'.config.node_id}) :
      TickOutcome e (.BroadcastPreVoteRequest e.config.node_id r.proposed_term r.round_id) e'

theorem tick_outcome : TickOutcome e (tick env e).1 (tick env e).2 := by
  unfold tick
  split
  · simp only
    split <;> exact .cleared rfl (by simp) (by simp)
  split
  · rename_i hwon
    simp only
    split
    · exact .cleared rfl (by simp) (by simp)
    · have hterm : (armFromTick env e).current_term = succU64 e.current_term := armElection_term e
      rw [hterm]
      exact .elects hwon rfl
  split
  · exact .waits rfl rfl
  split
  · exact .waits rfl rfl
  split
  · exact .cleared rfl (by simp) (by simp)
  · exact .opens _ rfl rfl rfl (HashMap.getD_insert_self _ _ _ _)

/-! ## The invariant -/

namespace Campaign

/-- The round in flight is the current one, its tally is the node itself and
members that granted it, and it is not void when it has its majority. -/
structure RoundKept (s : Campaign) (r : PreVoteRound) : Prop where
  current : r.round_id = s.engine.pre_vote_round_id
  known : s.engine.canvass.tally ⊆ s.members
  granted : ∀ v ∈ s.engine.canvass.tally, v = s.engine.config.node_id ∨ (v, r) ∈ s.grants
  sound : s.engine.roundWon → ¬ s.Void r

def Kept (s : Campaign) : Prop := ∀ r, s.engine.pre_vote_in_flight = some r → s.RoundKept r

variable {e : ReplicationEngine}

theorem roundWon_congr {e' : ReplicationEngine} (h : e'.canvass = e.canvass) : e'.roundWon = e.roundWon := by
  have hc : e'.config = e.config := congrArg Canvass.config h
  have hp : e'.pre_votes_received = e.pre_votes_received := congrArg Canvass.pre_votes_received h
  have hf : e'.pre_vote_in_flight = e.pre_vote_in_flight := congrArg Canvass.pre_vote_in_flight h
  simp only [roundWon, preVoteMajorityReached, preVotesCount, majority, ReplicationEngine.total, hc, hp, hf]
  rfl

variable {s : Campaign}

theorem RoundKept.frame {s' : Campaign} {r : PreVoteRound} (h : s.RoundKept r)
    (hc : s'.engine.canvass = s.engine.canvass) (hg : s'.grants = s.grants)
    (hs : s.engine.roundWon → ¬ s'.Void r) : s'.RoundKept r where
  current := h.current.trans (congrArg Canvass.pre_vote_round_id hc).symm
  known := by
    have hconf : s'.engine.config = s.engine.config := congrArg Canvass.config hc
    rw [hc, members, hconf]
    exact h.known
  granted := by
    have hconf : s'.engine.config = s.engine.config := congrArg Canvass.config hc
    rw [hc, hconf, hg]
    exact h.granted
  sound := by
    rw [roundWon_congr hc]
    exact hs

/-- A message that leaves the canvass alone keeps the invariant: it makes no won
round void, and it leaves the others as void as they were. -/
theorem kept_of_frame {s' : Campaign} {void : Bool} (h : s.Kept) (hc : s'.engine.canvass = s.engine.canvass)
    (hg : s'.grants = s.grants) (hv : void → ¬ s.engine.roundWon)
    (hsame : ¬ void → s'.contact = s.contact ∧ s'.engine.current_term = s.engine.current_term) : s'.Kept := by
  intro r hr
  have hf : s'.engine.pre_vote_in_flight = s.engine.pre_vote_in_flight := congrArg Canvass.pre_vote_in_flight hc
  have hk := h r (hf ▸ hr)
  refine hk.frame hc hg fun hw => ?_
  have hnot : ¬ void := fun hvoid => hv hvoid hw
  obtain ⟨hcontact, hterm⟩ := hsame hnot
  rw [Void, hcontact, hterm]
  exact hk.sound hw

theorem receiveVoteRequest_term (c : NodeId) {t : Nat} (h : t ≤ e.current_term) :
    (receiveVoteRequest e c t).2.current_term = e.current_term := by
  have hlt : ¬ t > e.current_term := not_lt.2 h
  simp only [receiveVoteRequest, hlt, if_false]
  split_ifs <;> rfl

theorem receiveCommand_term (env : StepEnv) {t : Nat} (index : Nat) (cmd : ClusterCommand)
    (h : t ≤ e.current_term) : (receiveCommand deps env e t index cmd).2.current_term = e.current_term := by
  have hv := congrArg Voter.current_term (receiveCommand_voter deps env e t index cmd)
  rcases h.lt_or_eq with hlt | rfl
  · rwa [if_pos hlt] at hv
  · rwa [if_neg (lt_irrefl _)] at hv

/-- A response that counts adds its voter to the tally of the round it answers. -/
theorem kept_response (h : s.Kept) (env : StepEnv) (sender v : NodeId) (round : PreVoteRound)
    (granted legacy : Bool) (ho : s.Orderly (.preVoteResponse env sender v round granted legacy)) :
    (s.step deps (.preVoteResponse env sender v round granted legacy)).Kept := by
  intro r hr
  cases granted with
  | false => exact h r hr
  | true =>
    have hstep : (s.step deps (.preVoteResponse env sender v round true legacy)).engine =
      (recordPreVote s.engine v round.proposed_term (wireRoundId round legacy)).2 := rfl
    have hgrants : (s.step deps (.preVoteResponse env sender v round true legacy)).grants = (v, round) :: s.grants := rfl
    rcases recordPreVote_cases s.engine v round.proposed_term (wireRoundId round legacy) with
      hsame | ⟨hknown, haccept, hrec⟩
    · rw [hsame] at hstep
      have hk := h r (hstep ▸ hr)
      refine ⟨hstep ▸ hk.current, ?_, ?_, ?_⟩
      · rw [members, hstep]
        exact hk.known
      · rw [hstep, hgrants]
        exact fun w hw => (hk.granted w hw).imp_right (List.mem_cons_of_mem _)
      · rw [Void, hstep]
        exact hk.sound
    · rw [hrec] at hstep
      have hr' : s.engine.pre_vote_in_flight = some r := by rwa [hstep] at hr
      have hk := h r hr'
      obtain ⟨rfl, hvoid⟩ := ho (by simp [counts, hknown, haccept]) r hr'
      have htally : (s.step deps (.preVoteResponse env sender v round true legacy)).engine.canvass.tally =
          insert v s.engine.canvass.tally := by
        rw [hstep]
        exact HashMap.getD_insert_self _ _ _ _
      have hmember : v ∈ s.members := by simpa [isKnown, members] using hknown
      refine ⟨hstep ▸ hk.current, ?_, ?_, fun _ => ?_⟩
      · rw [htally, members, hstep]
        exact Finset.insert_subset hmember hk.known
      · rw [htally, hstep, hgrants]
        intro w hw
        rcases Finset.mem_insert.1 hw with rfl | hold
        · exact .inr List.mem_cons_self
        · exact (hk.granted w hold).imp_right (List.mem_cons_of_mem _)
      · rw [Void, hstep]
        exact hvoid

theorem kept_tick (h : s.Kept) {a : TickAction} (ho : TickOutcome s.engine a e) :
    (s.afterTick e a).Kept := by
  cases ho with
  | cleared hf ha hw =>
    have hs : s.afterTick e a = { s with engine := e } := by
      cases a with
      | BroadcastPreVoteRequest c t r => exact absurd rfl (ha c t r)
      | _ => rfl
    intro r hr
    rw [hs, hf] at hr
    cases hr
  | waits hc ht => exact @kept_of_frame _ _ false h hc rfl (by simp) fun _ => ⟨rfl, ht⟩
  | elects hw hf =>
    intro r hr
    cases hf.symm.trans hr
  | opens r hf hp hr hv =>
    intro r' hr'
    cases hf.symm.trans hr'
    refine ⟨hr, ?_, ?_, fun _ => ?_⟩
    · rw [show (s.afterTick e _).engine = e from rfl, hv]
      simp [members, afterTick]
    · rw [show (s.afterTick e _).engine = e from rfl, hv]
      simp
    · rintro (hcontact | hterm)
      · cases hcontact
      · exact hterm hp

theorem kept_step {ev : CampaignEvent} (ho : s.Orderly ev) (h : s.Kept) : (s.step deps ev).Kept := by
  cases ev with
  | tick env => exact kept_tick h (tick_outcome env s.engine)
  | heartbeat env sender l t =>
    refine kept_of_frame h (receiveHeartbeat_canvass env s.engine l t) rfl ho fun hv => ?_
    have hlt : ¬ s.engine.current_term ≤ t := by simpa [voids] using hv
    have hstep : (s.step deps (.heartbeat env sender l t)).engine = s.engine := if_neg hlt
    exact ⟨by simp [step, hlt], by rw [hstep]⟩
  | voteRequest env sender c t =>
    refine kept_of_frame h (receiveVoteRequest_canvass s.engine c t) rfl ho fun hv => ⟨rfl, ?_⟩
    have hle : t ≤ s.engine.current_term := by simpa [voids] using hv
    exact receiveVoteRequest_term c hle
  | command env sender t index cmd =>
    refine kept_of_frame h (receiveCommand_canvass env s.engine t index cmd) rfl ho fun hv => ?_
    obtain ⟨hle, htaken⟩ : t ≤ s.engine.current_term ∧ entryTaken s.engine t index = false := by simpa [voids] using hv
    exact ⟨by simp [step, htaken], receiveCommand_term env index cmd hle⟩
  | preVoteResponse env sender v round granted legacy => exact kept_response h env sender v round granted legacy ho

/-- The majority of a round is a quorum of the members. -/
theorem quorum_of_won (h : s.Kept) (hw : s.engine.roundWon) :
    ∃ r, s.RoundKept r ∧ Quorum s.members s.engine.canvass.tally := by
  unfold roundWon at hw
  split at hw
  · rename_i r hr
    have hk := h r hr
    have hcount : s.engine.majority ≤ s.engine.canvass.tally.card := by
      have hreached : s.engine.majority ≤ s.engine.preVotesCount r.round_id := of_decide_eq_true hw
      rwa [hk.current] at hreached
    have hmembers : s.members.card ≤ s.engine.total :=
      (Finset.card_insert_le _ _).trans (Nat.succ_le_succ (List.toFinset_card_le _))
    refine ⟨r, hk, Quorum.of_majority hk.known (le_trans ?_ hcount)⟩
    exact Nat.succ_le_succ (Nat.div_le_div_right hmembers)
  · cases hw

theorem tickSound_of_kept (h : s.Kept) (ev : CampaignEvent) : s.TickSound ev := by
  cases ev with
  | tick env =>
    intro c t ht
    have ho := tick_outcome env s.engine
    rw [ht] at ho
    cases ho with
    | cleared hf ha hw => exact absurd rfl (hw c t)
    | elects hw hf =>
      obtain ⟨r, hk, hq⟩ := quorum_of_won h hw
      obtain ⟨hcontact, hterm⟩ := not_or.1 (hk.sound hw)
      refine ⟨Bool.eq_false_of_not_eq_true hcontact, _, hq, fun v hv => ?_⟩
      have hround : (⟨succU64 s.engine.current_term, s.engine.pre_vote_round_id⟩ : PreVoteRound) = r := by
        rw [← hk.current, ← not_not.1 hterm]
      rw [hround]
      exact hk.granted v hv
  | _ => trivial

variable (deps)

/-- Every real election that a tick of an orderly run starts was granted by a
quorum in the round it ends, and no leader was heard in that round. -/
theorem preVote_sound (e : ReplicationEngine) (h : e.pre_vote_in_flight = none) (events : List CampaignEvent)
    (hg : Guarded (step deps) Orderly { engine := e } events) :
    Guarded (step deps) TickSound { engine := e } events := by
  have hkept : Kept { engine := e } := by
    intro r hr
    cases h.symm.trans hr
  exact hg.guard Kept (fun s ev ho hk => ⟨kept_step ho hk, tickSound_of_kept hk ev⟩) hkept

/-! ## Runs -/

/-- Long after every timer ran out. -/
def lateEnv : StepEnv := { stillEnv with now := 1000000000000 }

def freshNode : Campaign :=
  { engine := ReplicationEngine.new stillEnv (memberConfig "n1" ["n2", "n3"]) (memberManager "n1") }

/-- A round that `n2` grants, and the election after it. -/
def quietRound : List CampaignEvent :=
  [.tick lateEnv, .preVoteResponse lateEnv "n2" "n2" ⟨1, 1⟩ true false, .tick lateEnv]

theorem preVote_sound_quiet :
    Guarded (step bareDeps) TickSound freshNode quietRound ∧
      (tick lateEnv (quietRound.take 2 |>.foldl (step bareDeps) freshNode).engine).1 =
        .BroadcastVoteRequest "n1" 1 :=
  ⟨preVote_sound bareDeps _ rfl quietRound (by decide), by decide⟩

/-- A leader of term 5 is heard before the grant of `n2` arrives. -/
def heardLeader : List CampaignEvent :=
  [.tick lateEnv, .heartbeat lateEnv "n3" "n3" 5, .preVoteResponse lateEnv "n2" "n2" ⟨1, 1⟩ true false]

/-- The node starts an election for term 6, for which nobody granted a pre-vote,
against the leader it has just heard. -/
theorem vote_after_heartbeat :
    let s := heardLeader.foldl (step bareDeps) freshNode
    (tick lateEnv s.engine).1 = .BroadcastVoteRequest "n1" 6 ∧ ¬ s.PreVoted 6 ∧
      ¬ Guarded (step bareDeps) TickSound freshNode (heardLeader ++ [.tick lateEnv]) := by
  have hvote : (tick lateEnv (heardLeader.foldl (step bareDeps) freshNode).engine).1 = .BroadcastVoteRequest "n1" 6 := by
    decide
  have hnot : ¬ (heardLeader.foldl (step bareDeps) freshNode).PreVoted 6 :=
    fun h => absurd h.1 (by decide)
  refine ⟨hvote, hnot, fun hrun => hnot ?_⟩
  obtain ⟨-, hlast, -⟩ := (guarded_append freshNode heardLeader _).1 hrun
  exact hlast "n1" 6 hvote

end Campaign

end FerroDruid.Cluster
