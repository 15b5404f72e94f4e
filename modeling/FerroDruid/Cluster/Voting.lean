import FerroDruid.Cluster.Network
/-!
# Terms and votes of one node

`Voter` is the part of an engine that elections read and write.
`nodeStep_voter` says everything an operation can do to it; whatever is proved
about terms and votes is proved from that.

A node's terms never decrease, and it votes for one candidate per term, as long
as no snapshot takes its term back and no election starts at the last `u64`.
`discipline_iff` says that these are the only two ways.
-/

namespace FerroDruid.Cluster

open FerroDruid.Lib ReplicationEngine List

variable (deps : Deps)

structure Voter where
  role : ReplicationRole
  current_term : Nat
  voted_for : Option NodeId
  votes_received : HashMap Nat (Finset NodeId)
  election_term : Option Nat
  ballots : List (Nat × NodeId)

namespace Voter

def tally (v : Voter) (term : Nat) : Finset NodeId := v.votes_received.getD term ∅

/-- A heartbeat at `term`. -/
def heed (v : Voter) (term : Nat) : Voter :=
  { v with
    current_term := term
    role := .Follower
    voted_for := if term > v.current_term then none else v.voted_for }

/-- The term and the vote a request at `term` is answered in. -/
def enter (v : Voter) (term : Nat) : Voter :=
  if term > v.current_term then { v with current_term := term, voted_for := none, role := .Follower } else v

/-- A vote request of `candidate` at `term`. -/
def answer (v : Voter) (candidate : NodeId) (term : Nat) : Voter :=
  let v := v.enter term
  if v.voted_for = none ∨ v.voted_for = some candidate then
    { v with voted_for := some candidate, ballots := (term, candidate) :: v.ballots }
  else v

/-- A new election, with the node's own vote. -/
def stand (v : Voter) (id : NodeId) : Voter :=
  { v with
    role := .Candidate
    current_term := succU64 v.current_term
    voted_for := some id
    votes_received := AList.insert (succU64 v.current_term) {id} ∅
    election_term := some (succU64 v.current_term)
    ballots := (succU64 v.current_term, id) :: v.ballots }

def count (v : Voter) (voter : NodeId) (term : Nat) : Voter :=
  { v with votes_received := AList.insert term (insert voter (v.tally term)) v.votes_received }

theorem mem_tally_count {v : Voter} {w w' : NodeId} {t t' : Nat} :
    w' ∈ (v.count w t).tally t' ↔ (w' = w ∧ t' = t) ∨ w' ∈ v.tally t' := by
  unfold count tally HashMap.getD
  by_cases ht : t' = t
  · subst ht
    simp
  · rw [AList.lookup_insert_ne ht]
    simp [ht]

theorem mem_tally_stand {v : Voter} {id w : NodeId} {t : Nat} :
    w ∈ (v.stand id).tally t ↔ w = id ∧ t = succU64 v.current_term := by
  unfold stand tally HashMap.getD
  by_cases ht : t = succU64 v.current_term
  · subst ht
    rw [AList.lookup_insert, Option.getD_some, Finset.mem_singleton]
    simp
  · rw [AList.lookup_insert_ne ht]
    simp [ht]

def win (v : Voter) : Voter := { v with role := .Leader }

def lose (v : Voter) : Voter := { v with role := .Follower, election_term := none }

end Voter

def ReplicationEngine.voter (e : ReplicationEngine) : Voter where
  role := e.role
  current_term := e.current_term
  voted_for := e.voted_for
  votes_received := e.votes_received
  election_term := e.election_term
  ballots := e.history.ballots

/-! ## The two writes of a term that no election makes -/

/-- The term a replicated command or a restored snapshot puts in place of the
current one. -/
def adoptedTerm (e : ReplicationEngine) : NodeInput → Option Nat
  | .receive _ _ (.ReplicateCommand term _ _) => if term < e.current_term then none else some term
  | i => (installed deps e i).map fun (_, _, term) => term

/-- The input starts a real election. -/
def arms (e : ReplicationEngine) : NodeInput → Bool
  | .startElection _ => true
  | .act .armElection => true
  | .act (.tick env) =>
    decide (e.role ≠ .Leader) && (e.roundWon ||
      (e.election_timer.isExpired env && !e.inGrace env && decide (e.config.peers = [])))
  | _ => false

/-! ## What an operation does to the voter -/

/-- Every change an input can make to the voter. -/
inductive VoterStep (e : ReplicationEngine) (i : NodeInput) : Voter → Prop
  | quiet : VoterStep e i e.voter
  | adopt (t : Nat) (h : adoptedTerm deps e i = some t) : VoterStep e i { e.voter with current_term := t }
  | heed (t : Nat) (h : e.current_term ≤ t) : VoterStep e i (e.voter.heed t)
  | down : VoterStep e i { e.voter with role := .Follower }
  | answer (env : StepEnv) (s c : NodeId) (t : Nat) (hi : i = .receive env s (.VoteRequest c t))
      (h : e.current_term ≤ t) : VoterStep e i (e.voter.answer c t)
  | counted (env : StepEnv) (s w : NodeId) (t : Nat) (hi : i = .receive env s (.VoteResponse w t true))
      (hk : e.isKnown w) (ht : t = e.current_term) : VoterStep e i (e.voter.count w t)
  | promoted (env : StepEnv) (s w : NodeId) (t : Nat) (hi : i = .receive env s (.VoteResponse w t true))
      (hk : e.isKnown w) (ht : t = e.current_term) (hr : e.role = .Candidate)
      (hm : e.majority ≤ ((e.voter.count w t).tally t).card) : VoterStep e i (e.voter.count w t).win
  | armed (h : arms e i) : VoterStep e i (e.voter.stand e.config.node_id)
  | alone (h : arms e i) (hp : e.config.peers = []) : VoterStep e i (e.voter.stand e.config.node_id).win
  | elected (inbox : List ReplicationMessage) (votes : HashMap Nat (Finset NodeId)) (hi : i = .startElection inbox)
      (hv : ∀ t w, w ∈ votes.getD t ∅ →
        w ∈ (e.voter.stand e.config.node_id).tally t ∨ (.VoteResponse w t true ∈ inbox ∧ e.isKnown w))
      (hm : e.majority ≤ (votes.getD (succU64 e.current_term) ∅).card) :
      VoterStep e i { e.voter.stand e.config.node_id with votes_received := votes }.win
  | lost (inbox : List ReplicationMessage) (votes : HashMap Nat (Finset NodeId)) (hi : i = .startElection inbox)
      (hv : ∀ t w, w ∈ votes.getD t ∅ →
        w ∈ (e.voter.stand e.config.node_id).tally t ∨ (.VoteResponse w t true ∈ inbox ∧ e.isKnown w)) :
      VoterStep e i { e.voter.stand e.config.node_id with votes_received := votes }.lose

theorem becomeCandidate_voter (e : ReplicationEngine) : (becomeCandidate e).voter = e.voter.stand e.config.node_id := rfl

@[simp] theorem becomeLeader_voter (e : ReplicationEngine) : (becomeLeader e).voter = e.voter.win := rfl

variable (env : StepEnv)

theorem receiveCommand_voter (e : ReplicationEngine) (term index : Nat) (cmd : ClusterCommand) :
    (receiveCommand deps env e term index cmd).2.voter =
      if term < e.current_term then e.voter else { e.voter with current_term := term } := by
  unfold receiveCommand
  by_cases h : term < e.current_term
  · simp only [h, if_true]
  · simp only [h, if_false]
    split
    · split
      · split <;> rfl
      · rfl
    · split
      · rfl
      · split <;> rfl

theorem restoreSnapshot_voter (e : ReplicationEngine) (sn : ClusterSnapshot) (last_index term : Nat) :
    (restoreSnapshot deps e sn last_index term).2.voter =
      if last_index > MAX_SNAPSHOT_LOG_INDEX then e.voter else { e.voter with current_term := term } := by
  unfold restoreSnapshot
  split <;> rfl

theorem handleSnapshotResponse_voter (e : ReplicationEngine) (sn : ClusterSnapshot)
    (last_index term : Nat) : (handleSnapshotResponse deps env e sn last_index term).2.voter =
      (restoreSnapshot deps e sn last_index term).2.voter := by
  simp only [handleSnapshotResponse]
  split <;> rfl

theorem buffered_voter (e : ReplicationEngine) (c : SnapshotChunk) : (buffered e c).voter = e.voter := by
  unfold buffered reassemble
  simp only
  split_ifs <;> rfl

theorem handleSnapshotChunk_voter (e : ReplicationEngine) (c : SnapshotChunk) :
    (handleSnapshotChunk deps e c).2.voter = match installs deps e c with
      | some (_, _, t) => { e.voter with current_term := t }
      | none => e.voter := by
  cases h : installs deps e c with
  | none => rw [(handleSnapshotChunk_none deps h).1, buffered_voter]
  | some r =>
    obtain ⟨hl, hs⟩ := handleSnapshotChunk_some deps h
    rw [hs, restoreSnapshot_voter, if_neg (not_lt.2 hl), buffered_voter]

/-- A vote is counted in the active election of the current term, from a known
node, or it is dropped. -/
theorem recordVote_cases (e : ReplicationEngine) (w : NodeId) (t : Nat) :
    recordVote e w t = (false, e) ∨
      (e.isKnown w ∧ t = e.current_term ∧ (recordVote e w t).2.voter = e.voter.count w t) := by
  unfold recordVote
  split_ifs with h1 h2
  · exact .inl rfl
  · simp only [not_or, not_not] at h1
    exact .inr ⟨h2, h1.2, rfl⟩
  · exact .inl rfl

variable {e : ReplicationEngine}

theorem isKnown_congr {e' : ReplicationEngine} (h : e'.config = e.config) (w : NodeId) : e'.isKnown w = e.isKnown w := by
  unfold isKnown
  rw [h]

theorem recordInbox_voter (inbox : List ReplicationMessage) (e : ReplicationEngine) :
    ∃ votes, (recordInbox e inbox).voter = { e.voter with votes_received := votes } ∧
      ∀ t w, w ∈ votes.getD t ∅ → w ∈ e.voter.tally t ∨ (.VoteResponse w t true ∈ inbox ∧ e.isKnown w) := by
  fun_induction recordInbox e inbox with
  | case1 e => exact ⟨e.votes_received, rfl, fun t w hw => .inl hw⟩
  | case2 e voter_id term inbox ih =>
    obtain ⟨votes, hv, hmem⟩ := ih
    have hcfg : (recordVote e voter_id term).2.config = e.config := by
      obtain ⟨votes, h⟩ := recordVote_frame e voter_id term
      rw [h]
    rcases recordVote_cases e voter_id term with h | ⟨hk, -, h⟩
    · rw [h] at hv hmem
      rw [h]
      exact ⟨votes, hv, fun t w hw => (hmem t w hw).imp id fun h => ⟨mem_cons_of_mem _ h.1, h.2⟩⟩
    · rw [h] at hv hmem
      refine ⟨votes, hv, fun t w hw => ?_⟩
      rcases hmem t w hw with hw | ⟨hw, hk'⟩
      · rcases Voter.mem_tally_count.1 hw with ⟨rfl, rfl⟩ | hw
        · exact .inr ⟨mem_cons_self, hk⟩
        · exact .inl hw
      · exact .inr ⟨mem_cons_of_mem _ hw, by rwa [isKnown_congr hcfg] at hk'⟩
  | case3 e m inbox hne ih =>
    obtain ⟨votes, hv, hmem⟩ := ih
    exact ⟨votes, hv, fun t w hw => (hmem t w hw).imp id fun h => ⟨mem_cons_of_mem _ h.1, h.2⟩⟩

variable {deps} in
theorem VoterStep.of_eq {i : NodeInput} {v : Voter} (h : v = e.voter) : VoterStep deps e i v :=
  h ▸ .quiet

variable {i : NodeInput}

theorem armElection_voter (e : ReplicationEngine) (h : arms e i) :
    VoterStep deps e i (armElection e).2.voter := by
  by_cases hp : e.config.peers = []
  · have hv : (armElection e).2.voter = (e.voter.stand e.config.node_id).win := by
      have hp' : (becomeCandidate e).config.peers = [] := hp
      simp only [armElection, hp', if_true]
      rfl
    rw [hv]
    exact .alone h hp
  · have hv : (armElection e).2.voter = e.voter.stand e.config.node_id := by
      have hp' : (becomeCandidate e).config.peers ≠ [] := hp
      simp only [armElection, hp', if_false]
      rfl
    rw [hv]
    exact .armed h

theorem startElection_voter (e : ReplicationEngine) (inbox : List ReplicationMessage) :
    VoterStep deps e (.startElection inbox) (startElection e inbox).2.voter := by
  obtain ⟨votes, hv, hmem⟩ := recordInbox_voter inbox (becomeCandidate e)
  have hcount : (recordInbox (becomeCandidate e) inbox).votesCount (becomeCandidate e).current_term =
      (votes.getD (succU64 e.current_term) ∅).card := by
    have hr := congrArg Voter.votes_received hv
    simp only [voter] at hr
    rw [votesCount, hr]
    rfl
  have hmaj : (recordInbox (becomeCandidate e) inbox).majority = e.majority := by
    obtain ⟨votes, h⟩ := recordInbox_frame inbox (becomeCandidate e)
    rw [h]
    rfl
  unfold startElection
  simp only [hcount, hmaj]
  split
  · next hp => exact .alone rfl hp
  · split
    · next hm =>
      rw [becomeLeader_voter, hv]
      exact .elected inbox votes rfl hmem hm
    · have hl : ({ recordInbox (becomeCandidate e) inbox with role := .Follower, election_term := none } :
          ReplicationEngine).voter = (recordInbox (becomeCandidate e) inbox).voter.lose := rfl
      rw [hl, hv]
      exact .lost inbox votes rfl hmem

theorem tick_voter (env : StepEnv) (e : ReplicationEngine) :
    VoterStep deps e (.act (.tick env)) (tick env e).2.voter := by
  have armed : ∀ h : arms e (.act (.tick env)), VoterStep deps e (.act (.tick env)) (armFromTick env e).voter :=
    fun h => armElection_voter deps e h
  unfold tick
  by_cases hl : e.role = .Leader
  · rw [if_pos hl]
    simp only
    split <;> exact .of_eq rfl
  rw [if_neg hl]
  by_cases hw : e.roundWon
  · have ha : arms e (.act (.tick env)) := by simp [arms, hl, hw]
    rw [if_pos hw]
    split <;> exact armed ha
  rw [if_neg hw]
  by_cases hx : e.election_timer.isExpired env
  · rw [if_neg (not_not.2 hx)]
    by_cases hg : e.inGrace env
    · rw [if_pos hg]
      exact .of_eq rfl
    rw [if_neg hg]
    by_cases hp : e.config.peers = []
    · rw [if_pos hp]
      exact armed (by simp [arms, hl, hx, hg, hp])
    · rw [if_neg hp]
      exact .of_eq rfl
  · rw [if_pos hx]
    exact .of_eq rfl

theorem receiveVoteRequest_voter (e : ReplicationEngine) (c : NodeId) (t : Nat) :
    (receiveVoteRequest e c t).2.voter = if t < e.current_term then e.voter else e.voter.answer c t := by
  unfold receiveVoteRequest
  by_cases h : t < e.current_term
  · simp only [h, if_true]
  · simp only [h, if_false]
    by_cases h1 : t > e.current_term
    · simp only [h1, if_true, Voter.answer, Voter.enter, voter]
      simp
    · simp only [h1, if_false, Voter.answer, Voter.enter, voter]
      split <;> rfl

theorem receiveVoteResponse_voter (env : StepEnv) (e : ReplicationEngine) (s w : NodeId) (t : Nat) (granted : Bool) :
    VoterStep deps e (.receive env s (.VoteResponse w t granted))
      (receive deps env e s (.VoteResponse w t granted)).2.voter := by
  cases granted with
  | false => exact .of_eq rfl
  | true =>
    have hcfg : (recordVote e w t).2.config = e.config := by
      obtain ⟨votes, h⟩ := recordVote_frame e w t
      rw [h]
    have hr : receiveVoteResponse e w t true = recordVote e w t := rfl
    simp only [receive, hr]
    rcases recordVote_cases e w t with h | ⟨hk, ht, h⟩
    · rw [h]
      exact .of_eq rfl
    · split
      · -- Newly counted: the election may be over.
        unfold tryPromoteToLeader
        split
        · rw [h]; exact .counted env s w t rfl hk ht
        · next term hterm =>
          split
          · rw [h]; exact .counted env s w t rfl hk ht
          · next hc =>
            simp only [not_or, not_not, not_lt] at hc
            rw [becomeLeader_voter, h]
            have hrole : e.role = .Candidate := (congrArg Voter.role h).symm.trans hc.2.1
            refine .promoted env s w t rfl hk ht hrole ?_
            have hcur : (recordVote e w t).2.current_term = e.current_term := congrArg Voter.current_term h
            have hmaj : (recordVote e w t).2.majority = e.majority := by unfold majority ReplicationEngine.total; rw [hcfg]
            have hvotes : (recordVote e w t).2.votes_received = (e.voter.count w t).votes_received :=
              congrArg Voter.votes_received h
            have hm := hc.2.2
            rw [hmaj, votesCount, hvotes, ← hc.1, hcur, ← ht] at hm
            exact hm
      · rw [h]; exact .counted env s w t rfl hk ht

theorem receive_voter (env : StepEnv) (e : ReplicationEngine) (s : NodeId) (msg : ReplicationMessage) :
    VoterStep deps e (.receive env s msg) (receive deps env e s msg).2.voter := by
  cases msg with
  | Heartbeat leader_id t =>
    simp only [receive, receiveHeartbeat]
    split
    · next h => exact .heed t h
    · exact .quiet
  | VoteRequest c t =>
    simp only [receive, receiveVoteRequest_voter]
    split
    · exact .quiet
    · next h => exact .answer env s c t rfl (not_lt.1 h)
  | VoteResponse w t granted => exact receiveVoteResponse_voter deps env e s w t granted
  | ReplicateCommand t index cmd =>
    have hv := receiveCommand_voter deps env e t index cmd
    simp only [receive, processReplicateCommand]
    by_cases h : t < e.current_term
    · rw [hv, if_pos h]; exact .quiet
    · rw [hv, if_neg h]; exact .adopt t (by simp only [adoptedTerm, h, if_false])
  | ReplicateAck f index success hint =>
    simp only [receive, receiveReplicateAck]
    split_ifs <;> exact .of_eq rfl
  | SnapshotRequest f => exact .of_eq rfl
  | SnapshotResponse sn last_index t =>
    have hv := handleSnapshotResponse_voter deps env e sn last_index t
    rw [restoreSnapshot_voter] at hv
    simp only [receive]
    by_cases h : last_index > MAX_SNAPSHOT_LOG_INDEX
    · rw [hv, if_pos h]; exact .quiet
    · rw [hv, if_neg h]; exact .adopt t (by simp only [adoptedTerm, installed, h, if_false, Option.map_some])
  | Join n addr =>
    simp only [receive, handleJoin]
    split <;> exact .of_eq rfl
  | RequestPreVote c t r => exact .of_eq rfl
  | RequestPreVoteResponse w t granted r =>
    simp only [receive, receivePreVoteResponse, recordPreVote]
    split_ifs <;> exact .of_eq rfl
  | SnapshotChunk c =>
    have hv := handleSnapshotChunk_voter deps e c
    have hr : (receive deps env e s (.SnapshotChunk c)).2 = (handleSnapshotChunk deps e c).2 := by
      simp only [receive]
      split <;> (next h => rw [h])
    rw [hr, hv]
    cases h : installs deps e c with
    | none => exact .quiet
    | some r => exact .adopt r.2.2 (by simp only [adoptedTerm, installed, h, Option.map_some])
  | SnapshotChunkAck f tid l applied =>
    simp only [receive, receiveSnapshotChunkAck]
    split_ifs <;> exact .of_eq rfl

/-- What an input does to the voter of a node. -/
theorem nodeStep_voter (e : ReplicationEngine) (i : NodeInput) : VoterStep deps e i (nodeStep deps e i).2.voter := by
  cases i with
  | receive env s msg => exact receive_voter deps env e s msg
  | startElection inbox => exact startElection_voter deps e inbox
  | act i => cases i with
    | tick env => exact tick_voter deps env e
    | armElection => exact armElection_voter deps e rfl
    | sendChunks f tid st sz =>
      simp only [nodeStep, localStep]
      split <;> exact .of_eq rfl
    | stepDown => exact .down
    | _ => exact .of_eq rfl
  | submit env cmd =>
    simp only [nodeStep, beginSubmit]
    split
    · exact .of_eq rfl
    · split
      · exact .of_eq rfl
      · split <;> exact .of_eq rfl
  | poll index term =>
    simp only [nodeStep, pollSubmit]
    split <;> exact .of_eq rfl
  | timeout index => exact .of_eq rfl

/-! ## Terms only grow, one vote per term -/

/-- Every vote is for a term the node has reached, the vote of the current term
is the recorded one, and no term has two. -/
structure Voter.Disciplined (v : Voter) : Prop where
  reached : ∀ t c, (t, c) ∈ v.ballots → t ≤ v.current_term
  recorded : ∀ c, (v.current_term, c) ∈ v.ballots → v.voted_for = some c
  unique : ∀ t c c', (t, c) ∈ v.ballots → (t, c') ∈ v.ballots → c = c'

/-- The input does not take the term back: a snapshot it installs is not older
than the node, and an election it starts is not at the last `u64`. -/
def TermKept (e : ReplicationEngine) (i : NodeInput) : Prop :=
  (∀ t ∈ adoptedTerm deps e i, e.current_term ≤ t) ∧ (arms e i → e.current_term + 1 < 2 ^ 64)

instance (e : ReplicationEngine) (i : NodeInput) : Decidable (TermKept deps e i) :=
  inferInstanceAs (Decidable (_ ∧ _))

theorem lt_succU64_iff (n : Nat) : n < succU64 n ↔ n + 1 < 2 ^ 64 := by
  unfold succU64
  omega

namespace Voter.Disciplined

variable {v : Voter}

section

variable (h : v.Disciplined)

include h

/-- A new term without a new vote. -/
theorem raise {t : Nat} (ht : v.current_term < t) (r : ReplicationRole) (f : Option NodeId) :
    { v with current_term := t, role := r, voted_for := f }.Disciplined where
  reached t' c hc := (h.reached t' c hc).trans ht.le
  recorded c hc := absurd (h.reached t c hc) (not_le.2 ht)
  unique := h.unique

/-- A vote where the term has none, or the same one. -/
theorem vote {c : NodeId} (hc : v.voted_for = none ∨ v.voted_for = some c) :
    { v with voted_for := some c, ballots := (v.current_term, c) :: v.ballots }.Disciplined := by
  have hcur : ∀ c', (v.current_term, c') ∈ (v.current_term, c) :: v.ballots → c' = c := by
    intro c' hm
    rcases mem_cons.1 hm with he | hm
    · exact (Prod.ext_iff.1 he).2
    · have hv := h.recorded c' hm
      rcases hc with hc | hc <;> rw [hc] at hv
      · cases hv
      · exact (Option.some.inj hv).symm
  have hold : ∀ t a, t ≠ v.current_term → (t, a) ∈ (v.current_term, c) :: v.ballots → (t, a) ∈ v.ballots := by
    intro t a ht hm
    rcases mem_cons.1 hm with he | hm
    · exact absurd (Prod.ext_iff.1 he).1 ht
    · exact hm
  refine ⟨fun t a hm => ?_, fun a hm => congrArg some (hcur a hm).symm, fun t a b ha hb => ?_⟩
  · by_cases ht : t = v.current_term
    · exact ht.le
    · exact h.reached t a (hold t a ht hm)
  · by_cases ht : t = v.current_term
    · subst ht
      rw [hcur a ha, hcur b hb]
    · exact h.unique t a b (hold t a ht ha) (hold t b ht hb)

/-- Discipline reads the term, the vote and the ballots only. -/
theorem congr {v' : Voter} (ht : v'.current_term = v.current_term) (hf : v'.voted_for = v.voted_for)
    (hb : v'.ballots = v.ballots) : v'.Disciplined :=
  ⟨by rw [hb, ht]; exact h.reached, by rw [hb, ht, hf]; exact h.recorded, by rw [hb]; exact h.unique⟩

theorem enter (t : Nat) : (v.enter t).Disciplined := by
  unfold Voter.enter
  split
  · next ht => exact h.raise ht .Follower none
  · exact h

theorem answer (c : NodeId) {t : Nat} (ht : v.current_term ≤ t) : (v.answer c t).Disciplined := by
  have hterm : (v.enter t).current_term = t := by
    unfold Voter.enter
    split
    · rfl
    · omega
  unfold Voter.answer
  simp only
  split
  · next hc =>
    exact ((h.enter t).vote hc).congr rfl rfl (by rw [hterm])
  · exact h.enter t

theorem stand (id : NodeId) (ht : v.current_term + 1 < 2 ^ 64) : (v.stand id).Disciplined :=
  ((h.raise ((lt_succU64_iff _).2 ht) .Candidate none).vote (.inl rfl)).congr rfl rfl rfl

end

end Voter.Disciplined

theorem disciplined_step (hk : TermKept deps e i) (h : e.voter.Disciplined) :
    (nodeStep deps e i).2.voter.Disciplined ∧ e.current_term ≤ (nodeStep deps e i).2.voter.current_term := by
  have hs := nodeStep_voter deps e i
  generalize (nodeStep deps e i).2.voter = v' at hs ⊢
  have up : arms e i → e.voter.current_term ≤ succU64 e.current_term := fun ha => ((lt_succU64_iff _).2 (hk.2 ha)).le
  cases hs with
  | quiet => exact ⟨h, le_rfl⟩
  | adopt t ha =>
    refine ⟨?_, hk.1 t ha⟩
    rcases (hk.1 t ha).eq_or_lt with rfl | ht
    · exact h
    · exact h.raise ht e.role e.voted_for
  | heed t ht =>
    refine ⟨?_, ht⟩
    rcases ht.eq_or_lt with rfl | ht
    · exact h.congr rfl (by simp only [Voter.heed, voter, gt_iff_lt, lt_self_iff_false, if_false]) rfl
    · exact h.raise ht .Follower _
  | down => exact ⟨h.congr rfl rfl rfl, le_rfl⟩
  | answer env s c t hi ht =>
    refine ⟨h.answer c ht, ?_⟩
    unfold Voter.answer Voter.enter
    simp only
    split_ifs <;> first | exact ht | exact le_rfl
  | counted env s w t hi hkn ht => exact ⟨h.congr rfl rfl rfl, le_rfl⟩
  | promoted env s w t hi hkn ht hr hm => exact ⟨h.congr rfl rfl rfl, le_rfl⟩
  | armed ha => exact ⟨h.stand _ (hk.2 ha), up ha⟩
  | alone ha hp => exact ⟨(h.stand _ (hk.2 ha)).congr rfl rfl rfl, up ha⟩
  | elected inbox votes hi hv hm =>
    subst hi
    exact ⟨(h.stand _ (hk.2 rfl)).congr rfl rfl rfl, up rfl⟩
  | lost inbox votes hi hv =>
    subst hi
    exact ⟨(h.stand _ (hk.2 rfl)).congr rfl rfl rfl, up rfl⟩

/-! ## The two ways the term goes back -/

/-- An adopted term is the node's term afterwards, also a smaller one. -/
theorem nodeStep_adopted {t : Nat} (h : adoptedTerm deps e i = some t) :
    (nodeStep deps e i).2.voter.current_term = t := by
  unfold adoptedTerm at h
  split at h
  · next env s t' index cmd =>
    split at h
    · cases h
    · next ht =>
      cases h
      simp only [nodeStep, receive, processReplicateCommand, receiveCommand_voter, ht, if_false]
  · obtain ⟨r, hr, rfl⟩ := Option.map_eq_some_iff.1 h
    unfold installed at hr
    split at hr
    · next env s sn last_index t' _ =>
      split at hr
      · cases hr
      · next hl =>
        cases hr
        simp only [nodeStep, receive, handleSnapshotResponse_voter, restoreSnapshot_voter, hl, if_false]
    · next env s c _ =>
      have hv := handleSnapshotChunk_voter deps e c
      rw [hr] at hv
      simp only [nodeStep, receive]
      split <;> (next he => rw [he] at hv; rw [hv])
    · cases hr

theorem armElection_term (e : ReplicationEngine) : (armElection e).2.voter.current_term = succU64 e.current_term := by
  simp only [armElection]
  split <;> rfl

/-- An election that starts moves the term by one, around the end of `u64`. -/
theorem nodeStep_armed (h : arms e i) :
    (nodeStep deps e i).2.voter.current_term = succU64 e.current_term := by
  unfold arms at h
  split at h
  · next inbox =>
    obtain ⟨votes, hv, -⟩ := recordInbox_voter inbox (becomeCandidate e)
    have hr : (recordInbox (becomeCandidate e) inbox).current_term = succU64 e.current_term :=
      congrArg Voter.current_term hv
    simp only [nodeStep, startElection]
    split
    · rfl
    · split <;> exact hr
  · exact armElection_term e
  · next env =>
    have harm : (armFromTick env e).voter.current_term = succU64 e.current_term := armElection_term e
    simp only [Bool.and_eq_true, decide_eq_true_eq, Bool.or_eq_true, Bool.not_eq_true'] at h
    obtain ⟨hl, hw⟩ := h
    simp only [nodeStep, localStep, tick]
    rw [if_neg hl]
    by_cases hw' : e.roundWon
    · rw [if_pos hw']
      split <;> exact harm
    · obtain ⟨⟨hx, hg⟩, hp⟩ := hw.resolve_left hw'
      rw [if_neg hw', if_neg (not_not.2 hx), if_neg (by rw [hg]; simp), if_pos hp]
      exact harm
  · cases h

theorem termKept_of_le
    (h : e.current_term ≤ (nodeStep deps e i).2.current_term) : TermKept deps e i := by
  refine ⟨fun t ht => ?_, fun ha => ?_⟩
  · rw [← nodeStep_adopted deps ht]
    exact h
  · have hs : e.current_term ≤ succU64 e.current_term := by
      rw [← nodeStep_armed deps ha]
      exact h
    unfold succU64 at hs
    omega

/-! ## Runs of one node -/

def nodeNext (e : ReplicationEngine) (i : NodeInput) : ReplicationEngine := (nodeStep deps e i).2

theorem new_disciplined (config : ReplicationConfig) (m : ClusterManager) :
    (ReplicationEngine.new env config m).voter.Disciplined :=
  ⟨fun _ _ h => absurd h not_mem_nil, fun _ h => absurd h not_mem_nil,
    fun _ _ _ h => absurd h not_mem_nil⟩

theorem disciplined_run {is : List NodeInput}
    (hg : Guarded (nodeNext deps) (TermKept deps) e is) (h : e.voter.Disciplined) :
    (is.foldl (nodeNext deps) e).voter.Disciplined :=
  hg.inv (fun e => e.voter.Disciplined) (fun _ _ hk hd => (disciplined_step deps hk hd).1) h

/-- A new node keeps its discipline along a run, terms that never decrease and
one candidate per term, exactly when no input takes its term back: every
snapshot it installs is at its term or later, and no election starts at the
last `u64`. -/
theorem discipline_iff (env : StepEnv) (config : ReplicationConfig) (m : ClusterManager) (is : List NodeInput) :
    ((∀ js i, js ++ [i] <+: is →
        (js.foldl (nodeNext deps) (.new env config m)).current_term ≤
          ((js ++ [i]).foldl (nodeNext deps) (.new env config m)).current_term) ∧
      ∀ t c c', (t, c) ∈ (is.foldl (nodeNext deps) (.new env config m)).history.ballots →
        (t, c') ∈ (is.foldl (nodeNext deps) (.new env config m)).history.ballots → c = c') ↔
    Guarded (nodeNext deps) (TermKept deps) (.new env config m) is := by
  constructor
  · rintro ⟨hmono, -⟩
    rw [guarded_iff_forall]
    intro js i hp
    have hle := hmono js i hp
    rw [foldl_append] at hle
    exact termKept_of_le deps hle
  · intro hg
    refine ⟨fun js i hp => ?_, (disciplined_run deps hg (new_disciplined env config m)).unique⟩
    have hk := (guarded_iff_forall _ _).1 hg js i hp
    have hjs : js <+: is := (prefix_append js [i]).trans hp
    have hd := disciplined_run deps (hg.shorten hjs) (new_disciplined env config m)
    rw [foldl_append]
    exact (disciplined_step deps hk hd).2

/-- Third-party code for runs that parse no date and no JSON. -/
def bareDeps : Deps where
  chrono := ⟨fun _ => none, fun _ => none⟩
  meta_json := ⟨fun _ => [], fun _ => .error "EOF while parsing a value"⟩
  entry_json := ⟨fun _ => [], fun _ => .error "EOF while parsing a value"⟩
  envelope_json := ⟨fun _ => [], fun _ => .error "EOF while parsing a value"⟩
  snapshot_json := ⟨fun _ => [], fun _ => .error "EOF while parsing a value"⟩

def stillEnv : StepEnv where
  now := 0
  draw := 0
  apply := { utc_now := 0, uuid := "u", order := id, order_perm := List.Perm.refl }

def memberConfig (id : NodeId) (peers : List NodeId) : ReplicationConfig where
  node_id := id
  peers := peers
  heartbeat_interval_ms := 100
  election_timeout_ms := 500
  cluster_security_hint := .Psk

def memberManager (id : NodeId) : ClusterManager :=
  newSingleNode { id, host := id, port := 8888, role := .AllInOne }

/-- Node `n3` votes for `n1` at term 5, restores a snapshot of term 2 and then
votes for `n2` at term 5. -/
theorem discipline_broken :
    let start := ReplicationEngine.new stillEnv (memberConfig "n3" ["n1", "n2"]) (memberManager "n3")
    let run := fun is => List.foldl (nodeNext bareDeps) start is
    let voted : List NodeInput := [.receive stillEnv "n1" (.VoteRequest "n1" 5)]
    let restored := voted ++ [.receive stillEnv "n2" (.SnapshotResponse (snapshot (memberManager "n2")) 0 2)]
    let again := restored ++ [.receive stillEnv "n2" (.VoteRequest "n2" 5)]
    (run restored).current_term < (run voted).current_term ∧
      (5, "n1") ∈ (run again).history.ballots ∧ (5, "n2") ∈ (run again).history.ballots := by
  decide

end FerroDruid.Cluster
