import FerroDruid.Cluster.Election
import FerroDruid.Cluster.Log
/-!
# Acknowledged commands

A submit that returned `Ok` has its command at a majority of the nodes. The
votes and the appends look at terms and indices only, not at what the logs
hold, so a later leader need not have the command and two leaders may put
different commands at one index. `acked_commands_kept` is about the runs in
which that does not come about: a leader submits only when no log is longer
than its own, a node is elected only over logs that are no longer than its own,
and no snapshot replaces a log. All logs are then beginnings of one list.
-/

namespace FerroDruid.Cluster

open FerroDruid.Lib ReplicationEngine List

variable (deps : Deps)

/-! ## The conditions -/

/-- The votes an input decides the election with. -/
def electorate (e : ReplicationEngine) : NodeInput → Finset NodeId
  | .receive _ _ (.VoteResponse w t true) =>
    if e.role = .Candidate ∧ t = e.current_term ∧ e.isKnown w then insert w (e.voter.tally t) else ∅
  | .startElection inbox => (recordInbox (becomeCandidate e) inbox).voter.tally (succU64 e.current_term)
  | _ => ∅

def isSubmit : NodeInput → Bool
  | .submit _ _ => true
  | _ => false

/-- No snapshot is installed; a leader that submits has the longest log; a
candidate that wins has a log no shorter than its voters'. -/
def NodeOrderly (cl : Membership) (s : Net) (n : NodeId) (j : NodeInput) : Prop :=
  (installed deps (s.nodes n) j).isNone ∧
    (isSubmit j → (s.nodes n).role = .Leader → ∀ m ∈ cl.members, (s.nodes m).last_index ≤ (s.nodes n).last_index) ∧
    ((s.nodes n).majority ≤ (electorate (s.nodes n) j).card →
      ∀ v ∈ electorate (s.nodes n) j, (s.nodes v).last_index ≤ (s.nodes n).last_index)

instance (cl : Membership) (s : Net) (n : NodeId) (j : NodeInput) : Decidable (NodeOrderly deps cl s n j) :=
  inferInstanceAs (Decidable (_ ∧ _ ∧ _))

def Orderly (cl : Membership) (s : Net) (i : NetInput) : Prop :=
  ∀ p ∈ s.target i, p.1 ∈ cl.members → NodeOrderly deps cl s p.1 p.2

instance (cl : Membership) (s : Net) (i : NetInput) : Decidable (Orderly deps cl s i) :=
  inferInstanceAs (Decidable (∀ p ∈ s.target i, _))

/-- The node has `cmd`, and nothing else, at `index`, and gave it to the state
machine as its `index`-th command. -/
structure HasAt (e : ReplicationEngine) (index : Nat) (cmd : ClusterCommand) : Prop where
  logged : (index, cmd) ∈ e.command_log
  only : ∀ c, (index, c) ∈ e.command_log → c = cmd
  applied : e.history.applied[index - 1]? = some cmd

/-! ## Elections -/

theorem electorate_known {e : ReplicationEngine} {i : NodeInput} {w : NodeId} (h : w ∈ electorate e i) :
    e.isKnown w ∨ ∃ t, w ∈ e.voter.tally t := by
  unfold electorate at h
  split at h
  · next env s w' t =>
    split at h
    · next hc =>
      rcases Finset.mem_insert.1 h with rfl | h
      · exact .inl hc.2.2
      · exact .inr ⟨t, h⟩
    · exact absurd h (Finset.notMem_empty w)
  · next inbox =>
    obtain ⟨votes, hv, hmem⟩ := recordInbox_voter inbox (becomeCandidate e)
    have hw : w ∈ votes.getD (succU64 e.current_term) ∅ := by
      rw [hv] at h
      exact h
    rcases hmem _ w hw with hw | ⟨-, hk⟩
    · rw [becomeCandidate_voter] at hw
      left
      simp only [isKnown, decide_eq_true_eq]
      exact .inl (Voter.mem_tally_stand.1 hw).1
    · exact .inl hk
  · exact absurd h (Finset.notMem_empty w)

/-- A node becomes leader alone, or with a majority of votes. -/
theorem nodeStep_elected {e : ReplicationEngine} {i : NodeInput} (h0 : e.role ≠ .Leader)
    (h : (nodeStep deps e i).2.role = .Leader) : e.config.peers = [] ∨ e.majority ≤ (electorate e i).card := by
  have key : ∀ v, VoterStep deps e i v → v.role = .Leader → (∀ inbox, i ≠ .startElection inbox) →
      e.config.peers = [] ∨ e.majority ≤ (electorate e i).card := by
    intro v hv hl hne
    cases hv with
    | promoted env s w t hi hk ht hr hm =>
      right
      subst hi
      have hel : electorate e (.receive env s (.VoteResponse w t true)) = insert w (e.voter.tally t) := by
        simp only [electorate, hr, hk, ← ht, and_self, if_true]
      rw [hel]
      convert hm using 2
      ext x
      rw [Voter.mem_tally_count, Finset.mem_insert]
      simp
    | alone ha hp => exact .inl hp
    | answer env s c t hi ht =>
      unfold Voter.answer Voter.enter at hl
      simp only at hl
      split_ifs at hl <;> exact absurd hl h0
    | elected inbox votes hi hv hm => exact absurd hi (hne inbox)
    | quiet => exact absurd hl h0
    | adopt t ht => exact absurd hl h0
    | counted env s w t hi hk ht => exact absurd hl h0
    | _ => cases hl
  by_cases hi : ∃ inbox, i = .startElection inbox
  · obtain ⟨inbox, rfl⟩ := hi
    have hmaj : (recordInbox (becomeCandidate e) inbox).majority = e.majority := by
      obtain ⟨votes, h⟩ := recordInbox_frame inbox (becomeCandidate e)
      rw [h]
      rfl
    simp only [nodeStep, startElection] at h
    split_ifs at h with hp hm
    · exact .inl hp
    · rw [hmaj] at hm
      exact .inr hm
  · simp only [not_exists] at hi
    exact key _ (nodeStep_voter deps e i) h hi

/-! ## One list of commands -/

/-- Every log is a beginning of `G`, and `G` is no longer than the longest; the
commands on the way are of `G`; an acknowledgement stands for a log that
reaches its index, and an acknowledged call for a quorum of them. -/
structure CommitInv (cl : Membership) (G : List ClusterCommand) (s : Net) : Prop where
  config : ∀ n ∈ cl.members, (s.nodes n).config = cl.config n
  reach : ∀ n ∈ cl.members, (s.nodes n).last_index ≤ G.length
  logs : ∀ n ∈ cl.members, (s.nodes n).command_log = numbered (G.take (s.nodes n).last_index)
  applied : ∀ n ∈ cl.members, (s.nodes n).history.applied = G.take (s.nodes n).last_index
  longest : ∀ k, (∀ n ∈ cl.members, (s.nodes n).last_index ≤ k) → G.length ≤ k
  commands : ∀ m ∈ s.sent, ∀ t i c, m.msg = .ReplicateCommand t i c → (i, c) ∈ numbered G
  acks : ∀ m ∈ s.sent, ∀ f i hint, m.msg = .ReplicateAck f i true hint → i ≤ (s.nodes f).last_index
  pending : ∀ n ∈ cl.members, ∀ i f, f ∈ (s.nodes n).pending_acks.getD i ∅ →
    f ∈ cl.members.erase n ∧ i ≤ (s.nodes f).last_index
  tally : ∀ n ∈ cl.members, ∀ t w, w ∈ (s.nodes n).voter.tally t → w ∈ cl.members
  waiting : ∀ c ∈ s.waiting, c.node ∈ cl.members ∧ (c.index, c.cmd) ∈ numbered G ∧
    c.index ≤ (s.nodes c.node).last_index
  acked : ∀ c ∈ s.acked, (c.index, c.cmd) ∈ numbered G ∧
    ∃ Q, Quorum cl.members Q ∧ ∀ v ∈ Q, c.index ≤ (s.nodes v).last_index

variable {cl : Membership} {G : List ClusterCommand} {s : Net}

theorem commitInv_start (env : NodeId → StepEnv) (managers : NodeId → ClusterManager) :
    CommitInv cl [] (Net.start cl env managers) where
  config _ _ := rfl
  reach _ _ := le_rfl
  logs _ _ := rfl
  applied _ _ := rfl
  longest _ _ := Nat.zero_le _
  commands _ h := absurd h not_mem_nil
  acks _ h := absurd h not_mem_nil
  pending _ _ i f h := by
    have hn : ¬ f ∈ (∅ : Finset NodeId) := Finset.notMem_empty f
    exact absurd h hn
  tally _ _ t w h := by
    have hn : ¬ w ∈ (∅ : Finset NodeId) := Finset.notMem_empty w
    exact absurd h hn
  waiting _ h := absurd h not_mem_nil
  acked _ h := absurd h not_mem_nil

variable {n : NodeId}

/-- In such a state a log that reaches an index has the command of `G` there. -/
theorem CommitInv.hasAt (h : CommitInv cl G s) (hn : n ∈ cl.members) {i : Nat} {c : ClusterCommand}
    (hc : (i, c) ∈ numbered G) (hi : i ≤ (s.nodes n).last_index) : HasAt (s.nodes n) i c := by
  have hmem : (i, c) ∈ (s.nodes n).command_log := by
    rw [h.logs n hn]
    exact mem_numbered_take.2 ⟨hi, hc⟩
  refine ⟨hmem, fun c' hc' => ?_, ?_⟩
  · rw [h.logs n hn] at hmem hc'
    exact numbered_unique hc' hmem
  · have := mem_numbered.1 (mem_numbered_take.2 ⟨hi, hc⟩)
    rw [h.applied n hn]
    exact this.2

variable {j : NodeInput}

/-- A candidate that wins has what a quorum has. -/
theorem CommitInv.elected_reach (h : CommitInv cl G s) (hn : n ∈ cl.members)
    (ho : NodeOrderly deps cl s n j) (h0 : (s.nodes n).role ≠ .Leader)
    (hl : (nodeStep deps (s.nodes n) j).2.role = .Leader) {Q : Finset NodeId} (hQ : Quorum cl.members Q) {i : Nat}
    (hi : ∀ v ∈ Q, i ≤ (s.nodes v).last_index) : i ≤ (s.nodes n).last_index := by
  rcases nodeStep_elected deps h0 hl with hp | hm
  · -- A node without peers is the whole quorum.
    have hone : cl.members.erase n = ∅ := by
      rw [← cl.peers_eq n hn, ← h.config n hn, hp]
      rfl
    obtain ⟨v, hv⟩ : Q.Nonempty := Finset.card_pos.1 (by have := hQ.half; omega)
    have hvn : v = n := by
      by_contra hne
      have := Finset.mem_erase.2 ⟨hne, hQ.sub hv⟩
      rw [hone] at this
      exact Finset.notMem_empty v this
    rw [← hvn]
    exact hi v hv
  · have hsub : electorate (s.nodes n) j ⊆ cl.members := fun w hw => by
      rcases electorate_known hw with hk | ⟨t, ht⟩
      · exact cl.known_mem hn (h.config n hn) hk
      · exact h.tally n hn t w ht
    have hle := ho.2.2 hm
    rw [cl.majority_eq hn (h.config n hn)] at hm
    obtain ⟨v, hv, hv'⟩ := hQ.inter (.of_majority hsub hm)
    exact (hi v hv).trans (hle v hv')

/-! ## Steps -/

theorem take_of_shorter {G' : List ClusterCommand} (h : G <+: G') {k : Nat} (hk : k ≤ G.length) :
    G'.take k = G.take k := by
  obtain ⟨rest, rfl⟩ := h
  rw [take_append_of_le_length hk]

variable {i : NetInput}

/-- The log of the node that moves: it stays a beginning of one list, which
grows when the node submits. -/
theorem CommitInv.log_step (h : CommitInv cl G s) (hn : n ∈ cl.members)
    (ht : s.target i = some (n, j)) (ho : NodeOrderly deps cl s n j) :
    ∃ G', G <+: G' ∧ (nodeStep deps (s.nodes n) j).2.log.last_index ≤ G'.length ∧
      (nodeStep deps (s.nodes n) j).2.log.command_log = numbered (G'.take (nodeStep deps (s.nodes n) j).2.log.last_index) ∧
      (nodeStep deps (s.nodes n) j).2.log.applied = G'.take (nodeStep deps (s.nodes n) j).2.log.last_index ∧
      (G' = G ∨ G'.length = (nodeStep deps (s.nodes n) j).2.log.last_index) := by
  have hstep := nodeStep_log deps (s.nodes n) j
  generalize (nodeStep deps (s.nodes n) j).2.log = l at hstep ⊢
  have hreach := h.reach n hn
  cases hstep with
  | quiet => exact ⟨G, prefix_refl G, hreach, h.logs n hn, h.applied n hn, .inl rfl⟩
  | submitted env cmd hi hl =>
    -- The leader's log is all of `G`.
    subst hi
    have hlen : (s.nodes n).last_index = G.length :=
      le_antisymm hreach (h.longest _ (ho.2.1 rfl hl))
    have hfull : (G ++ [cmd]).take ((s.nodes n).last_index + 1) = G ++ [cmd] := by
      rw [hlen]
      exact take_of_length_le (by simp)
    have hG : G.take (s.nodes n).last_index = G := by rw [hlen, take_length]
    refine ⟨G ++ [cmd], prefix_append G [cmd], ?_, ?_, ?_, .inr ?_⟩
    · simp only [LogView.push, log, length_append, length_singleton]
      omega
    · simp only [LogView.push, log, hfull, numbered_append, h.logs n hn, hG]
      rw [hlen]
    · simp only [LogView.push, log, hfull, h.applied n hn, hG]
    · simp only [LogView.push, log, length_append, length_singleton]
      omega
  | received env src t cmd hi hterm =>
    -- The command is the next one of `G`.
    subst hi
    have hc := mem_numbered.1 (h.commands _ (Net.target_receive ht) t _ cmd rfl)
    simp only [Nat.add_sub_cancel] at hc
    obtain ⟨hlt, hget⟩ := List.getElem?_eq_some_iff.1 hc.2
    have htake : G.take ((s.nodes n).last_index + 1) = G.take (s.nodes n).last_index ++ [cmd] := by
      rw [take_add_one, hc.2]
      rfl
    refine ⟨G, prefix_refl G, hlt, ?_, ?_, .inl rfl⟩
    · simp only [LogView.push, log, htake, numbered_append, h.logs n hn, length_take, Nat.min_eq_left hreach]
    · simp only [LogView.push, log, htake, h.applied n hn]
  | restored sn li t hinst =>
    have hnone := ho.1
    rw [hinst] at hnone
    cases hnone

/-- What the node that moves sends: commands of the list, and acknowledgements
it can answer for. -/
theorem CommitInv.sends (h : CommitInv cl G s) (hn : n ∈ cl.members)
    {G' : List ClusterCommand} (hG : G <+: G')
    (hlog : (nodeStep deps (s.nodes n) j).2.command_log =
      numbered (G'.take (nodeStep deps (s.nodes n) j).2.last_index))
    {dst : NodeId} {msg : ReplicationMessage} (hm : (dst, msg) ∈ (nodeStep deps (s.nodes n) j).1) :
    (∀ t i c, msg = .ReplicateCommand t i c → (i, c) ∈ numbered G') ∧
      ∀ f i hint, msg = .ReplicateAck f i true hint → f = n ∧ i ≤ (nodeStep deps (s.nodes n) j).2.last_index := by
  have hid : (s.nodes n).config.node_id = n := by rw [h.config n hn, cl.config_id n hn]
  constructor
  · rintro t i c rfl
    cases nodeStep_sends deps hm with
    | submitted env _ _ _ _ hi hw =>
      subst hi
      obtain ⟨hl, ⟨_, _, hr, -⟩ | hr⟩ := beginSubmit_ok deps hw
      · cases hr
      · cases hr
        have hlv := congrArg LogView.command_log (beginSubmit_log deps env (s.nodes n) c)
        rw [if_pos hl] at hlv
        have hin : ((s.nodes n).last_index + 1, c) ∈ (nodeStep deps (s.nodes n) (.submit env c)).2.command_log := by
          have : (nodeStep deps (s.nodes n) (.submit env c)).2.command_log = _ := hlv
          rw [this]
          exact mem_append_right _ (mem_singleton.2 rfl)
        rw [hlog] at hin
        exact (mem_numbered_take.1 hin).2
    | replayed _ _ _ _ hb =>
      have hin := mem_buildReplayBatch hb
      rw [h.logs n hn] at hin
      exact numbered_mono hG (mem_numbered_take.1 hin).2
  · rintro f i hint rfl
    generalize hmsg : ReplicationMessage.ReplicateAck f i true hint = msg at hm
    cases nodeStep_sends deps hm with
    | ack env _ term index cmd hi =>
      subst hi
      injection hmsg with h1 h2 h3 h4
      subst h1 h2
      exact ⟨hid, receiveCommand_ok deps h3.symm⟩
    | _ => cases hmsg

theorem commitInv_step (ho : Orderly deps cl s i) (h : CommitInv cl G s) :
    ∃ G', CommitInv cl G' (s.step deps cl i) := by
  rcases s.step_cases deps cl i with he | ⟨n, j, ht, hn, hnodes, hsent⟩
  · exact ⟨G, by rwa [he]⟩
  have hon := ho (n, j) ht hn
  obtain ⟨G', hG, hreach, hlogs, happlied, hlen⟩ := h.log_step deps hn ht hon
  have new : (s.step deps cl i).nodes n = (nodeStep deps (s.nodes n) j).2 := by rw [hnodes, Function.update_self]
  have old : ∀ k, k ≠ n → (s.step deps cl i).nodes k = s.nodes k := fun k hk => by
    rw [hnodes, Function.update_of_ne hk]
  have grow : ∀ k, (s.nodes k).last_index ≤ ((s.step deps cl i).nodes k).last_index := by
    intro k
    by_cases hk : k = n
    · subst hk
      rw [new]
      exact nodeStep_last_index deps (Option.isNone_iff_eq_none.1 hon.1)
    · rw [old k hk]
  have hsends : ∀ m ∈ (s.step deps cl i).sent, m ∈ s.sent ∨ ∃ dst msg, m = ⟨n, dst, msg⟩ ∧
      (dst, msg) ∈ (nodeStep deps (s.nodes n) j).1 := by
    intro m hm
    rw [hsent] at hm
    rcases mem_append.1 hm with hm | hm
    · exact .inl hm
    · obtain ⟨⟨dst, msg⟩, hout, rfl⟩ := mem_map.1 hm
      exact .inr ⟨dst, msg, rfl, hout⟩
  -- An entry a started submit has just appended.
  have started : ∀ env cmd index term, i = .submit n env cmd →
      ((beginSubmit deps env (s.nodes n) cmd).1 = .ok (.Waiting index term) ∨
        ∃ count total, (beginSubmit deps env (s.nodes n) cmd).1 = .ok (.Acked ⟨count, total, index, term⟩) ) →
      (index, cmd) ∈ numbered G' ∧ index ≤ ((s.step deps cl i).nodes n).last_index := by
    intro env cmd index term hi hr
    subst hi
    cases ht
    have hstart : (s.nodes n).role = .Leader ∧ index = (s.nodes n).last_index + 1 := by
      rcases hr with hr | ⟨count, total, hr⟩
      · obtain ⟨hl, ⟨_, _, hr, -⟩ | hr⟩ := beginSubmit_ok deps hr
        · cases hr
        · cases hr; exact ⟨hl, rfl⟩
      · obtain ⟨hl, ⟨_, _, hr, -⟩ | hr⟩ := beginSubmit_ok deps hr
        · cases hr; exact ⟨hl, rfl⟩
        · cases hr
    obtain ⟨hl, rfl⟩ := hstart
    have hlv : (nodeStep deps (s.nodes n) (.submit env cmd)).2.log = _ := beginSubmit_log deps env (s.nodes n) cmd
    rw [if_pos hl] at hlv
    rw [hlv] at hlogs
    have hin : ((s.nodes n).last_index + 1, cmd) ∈ ((s.nodes n).log.push (s.nodes n).current_term cmd).command_log :=
      mem_append_right _ (mem_singleton.2 rfl)
    rw [hlogs] at hin
    refine ⟨(mem_numbered_take.1 hin).2, ?_⟩
    rw [new]
    exact (congrArg LogView.last_index hlv).ge
  refine ⟨G', ⟨?_, ?_, ?_, ?_, ?_, ?_, ?_, ?_, ?_, ?_, ?_⟩⟩
  · intro k hk
    by_cases hkn : k = n
    · subst hkn
      rw [new, nodeStep_config, h.config k hk]
    · rw [old k hkn, h.config k hk]
  · intro k hk
    by_cases hkn : k = n
    · subst hkn
      rw [new]
      exact hreach
    · rw [old k hkn]
      exact (h.reach k hk).trans hG.length_le
  · intro k hk
    by_cases hkn : k = n
    · subst hkn
      rw [new]
      exact hlogs
    · rw [old k hkn, take_of_shorter hG (h.reach k hk)]
      exact h.logs k hk
  · intro k hk
    by_cases hkn : k = n
    · subst hkn
      rw [new]
      exact happlied
    · rw [old k hkn, take_of_shorter hG (h.reach k hk)]
      exact h.applied k hk
  · intro k hk
    rcases hlen with rfl | hlen
    · exact h.longest k fun m hm => (grow m).trans (hk m hm)
    · rw [hlen]
      have := hk n hn
      rw [new] at this
      exact this
  · intro m hm t k c hmsg
    rcases hsends m hm with hm | ⟨dst, msg, rfl, hout⟩
    · exact numbered_mono hG (h.commands m hm t k c hmsg)
    · exact (h.sends deps hn hG hlogs hout).1 t k c hmsg
  · intro m hm f k hint hmsg
    rcases hsends m hm with hm | ⟨dst, msg, rfl, hout⟩
    · exact (h.acks m hm f k hint hmsg).trans (grow f)
    · obtain ⟨rfl, hle⟩ := (h.sends deps hn hG hlogs hout).2 f k hint hmsg
      rw [new]
      exact hle
  · intro k hk idx f hf
    by_cases hkn : k = n
    · subst hkn
      rw [new] at hf
      rcases nodeStep_pending deps hf with hf | ⟨hp, env, src, hint, rfl⟩
      · exact ⟨(h.pending k hk idx f hf).1, (h.pending k hk idx f hf).2.trans (grow f)⟩
      · rw [h.config k hk] at hp
        refine ⟨by rw [← cl.peers_eq k hk]; exact mem_toFinset.2 hp, ?_⟩
        exact (h.acks _ (Net.target_receive ht) f idx hint rfl).trans (grow f)
    · rw [old k hkn] at hf
      exact ⟨(h.pending k hk idx f hf).1, (h.pending k hk idx f hf).2.trans (grow f)⟩
  · intro k hk t w hw
    by_cases hkn : k = n
    · subst hkn
      rw [new] at hw
      rcases nodeStep_tally deps hw with hw | ⟨rfl, -⟩ | ⟨hkn, -⟩
      · exact h.tally k hk t w hw
      · rw [h.config k hk, cl.config_id k hk]
        exact hk
      · exact cl.known_mem hk (h.config k hk) hkn
    · rw [old k hkn] at hw
      exact h.tally k hk t w hw
  · intro c hc
    rcases Net.step_waiting deps hc with hc | ⟨env, hm, hi, hw⟩
    · obtain ⟨h1, h2, h3⟩ := h.waiting c hc
      exact ⟨h1, numbered_mono hG h2, h3.trans (grow _)⟩
    · have hcn : c.node = n := by
        rw [hi] at ht
        cases ht
        rfl
      obtain ⟨h1, h2⟩ := started env c.cmd c.index c.term (by rw [hi, hcn]) (.inl (by rw [← hcn]; exact hw))
      exact ⟨hm, h1, by rw [hcn]; exact h2⟩
  · intro c hc
    rcases Net.step_acked deps hc with hc | ⟨env, count, total, hm, hi, hw⟩ | ⟨hc, hmaj⟩
    · obtain ⟨h1, Q, hQ, h2⟩ := h.acked c hc
      exact ⟨numbered_mono hG h1, Q, hQ, fun v hv => (h2 v hv).trans (grow v)⟩
    · have hcn : c.node = n := by
        rw [hi] at ht
        cases ht
        rfl
      obtain ⟨h1, h2⟩ := started env c.cmd c.index c.term (by rw [hi, hcn]) (.inr ⟨count, total, by rw [← hcn]; exact hw⟩)
      obtain ⟨-, ⟨_, _, -, hone⟩ | hr⟩ := beginSubmit_ok deps hw
      · rw [cl.majority_eq hm (h.config _ hm)] at hone
        refine ⟨h1, {n}, .of_majority (Finset.singleton_subset_iff.2 hn) ?_, ?_⟩
        · rw [Finset.card_singleton]
          omega
        · intro v hv
          rw [Finset.mem_singleton.1 hv]
          exact h2
      · cases hr
    · obtain ⟨hm, h1, h2⟩ := h.waiting c hc
      rw [cl.majority_eq hm (h.config _ hm)] at hmaj
      refine ⟨numbered_mono hG h1, insert c.node ((s.nodes c.node).pending_acks.getD c.index ∅),
        .of_majority ?_ ?_, ?_⟩
      · intro v hv
        rcases Finset.mem_insert.1 hv with rfl | hv
        · exact hm
        · exact Finset.mem_of_mem_erase (h.pending _ hm _ v hv).1
      · rw [Finset.card_insert_of_notMem fun hin => Finset.notMem_erase _ _ (h.pending _ hm _ _ hin).1]
        exact hmaj
      · intro v hv
        rcases Finset.mem_insert.1 hv with rfl | hv
        · exact h2.trans (grow _)
        · exact (h.pending _ hm _ v hv).2.trans (grow v)

/-! ## Runs -/

theorem commitInv_run {env : NodeId → StepEnv} {managers : NodeId → ClusterManager} {is : List NetInput}
    (hg : Guarded (Net.step deps cl) (Orderly deps cl) (Net.start cl env managers) is) :
    ∃ G, CommitInv cl G (is.foldl (Net.step deps cl) (Net.start cl env managers)) :=
  hg.inv (fun s => ∃ G, CommitInv cl G s) (fun _ _ ho ⟨_, h⟩ => commitInv_step deps ho h)
    ⟨[], commitInv_start env managers⟩

theorem acked_run (is : List NetInput) {c : Call} (h : c ∈ s.acked) : c ∈ (is.foldl (Net.step deps cl) s).acked := by
  induction is generalizing s with
  | nil => exact h
  | cons i is ih => exact ih (Net.acked_step deps i h)

/-- A node that is elected has every acknowledged command. -/
theorem CommitInv.elected_hasAt (h : CommitInv cl G s) (ho : Orderly deps cl s i) {call : Call}
    (hc : call ∈ s.acked) (hn : n ∈ cl.members) (h0 : (s.nodes n).role ≠ .Leader)
    (hl : ((s.step deps cl i).nodes n).role = .Leader) :
    HasAt ((s.step deps cl i).nodes n) call.index call.cmd := by
  obtain ⟨G', h'⟩ := commitInv_step deps ho h
  obtain ⟨hcmd, -⟩ := h'.acked call (Net.acked_step deps i hc)
  obtain ⟨-, Q, hQ, hreach⟩ := h.acked call hc
  refine h'.hasAt hn hcmd ?_
  rcases s.step_cases deps cl i with he | ⟨m, j, ht, hm, hnodes, -⟩
  · rw [he] at hl
    exact absurd hl h0
  · by_cases hnm : n = m
    · subst hnm
      have hon := ho (n, j) ht hn
      rw [hnodes, Function.update_self] at hl ⊢
      exact (h.elected_reach deps hn hon h0 hl hQ hreach).trans
        (nodeStep_last_index deps (Option.isNone_iff_eq_none.1 hon.1))
    · rw [hnodes, Function.update_of_ne hnm] at hl
      exact absurd hl h0

/-- Along every orderly run, once a submit of `cmd` at `index` is acknowledged:
every log that reaches `index` has `cmd` there and applied it as its
`index`-th command, no two nodes applied different commands up to `index`, and
every node that is elected has it. -/
theorem acked_commands_kept (env : NodeId → StepEnv) (managers : NodeId → ClusterManager) (is : List NetInput)
    (hg : Guarded (Net.step deps cl) (Orderly deps cl) (Net.start cl env managers) is) :
    ∀ js ks, js <+: ks → ks <+: is → ∀ call ∈ (js.foldl (Net.step deps cl) (Net.start cl env managers)).acked,
      let s := ks.foldl (Net.step deps cl) (Net.start cl env managers)
      (∀ n ∈ cl.members, call.index ≤ (s.nodes n).last_index → HasAt (s.nodes n) call.index call.cmd) ∧
      (∀ n ∈ cl.members, ∀ n' ∈ cl.members, ∀ k < call.index, ∀ c c', (s.nodes n).history.applied[k]? = some c →
        (s.nodes n').history.applied[k]? = some c' → c = c') ∧
      ∀ i, ks ++ [i] <+: is → ∀ n ∈ cl.members, (s.nodes n).role ≠ .Leader →
        ((s.step deps cl i).nodes n).role = .Leader → HasAt ((s.step deps cl i).nodes n) call.index call.cmd := by
  intro js ks hjk hks call hcall s
  obtain ⟨G, h⟩ := commitInv_run deps (hg.shorten hks)
  have hc : call ∈ s.acked := by
    obtain ⟨rest, rfl⟩ := hjk
    simp only [s, foldl_append]
    exact acked_run deps rest hcall
  have ofG : ∀ n ∈ cl.members, ∀ (k : Nat) c, (s.nodes n).history.applied[k]? = some c → G[k]? = some c := by
    intro n hn k c hk
    rw [h.applied n hn, getElem?_take] at hk
    split at hk
    · exact hk
    · cases hk
  refine ⟨fun n hn hi => h.hasAt hn (h.acked call hc).1 hi, fun n hn n' hn' k _ c c' hk hk' => ?_,
    fun i hi n hn h0 hl => ?_⟩
  · exact Option.some.inj ((ofG n hn k c hk).symm.trans (ofG n' hn' k c' hk'))
  · exact h.elected_hasAt deps ((guarded_iff_forall _ _).1 hg ks i hi) hc hn h0 hl

/-- `n1` is elected, submits, and has the acknowledgement of `n2`. -/
def ackedRun : List NetInput :=
  [.act "n1" .armElection, .deliver 0 stillEnv, .deliver 2 stillEnv, .submit "n1" stillEnv (.ReleaseTaskLock "t"),
    .deliver 3 stillEnv, .deliver 5 stillEnv, .poll 0]

theorem acked_commands_kept_once :
    let s := ackedRun.foldl (Net.step bareDeps threeNodes) threeStart
    (⟨"n1", 1, 1, .ReleaseTaskLock "t"⟩ : Call) ∈ s.acked ∧ HasAt (s.nodes "n2") 1 (.ReleaseTaskLock "t") := by
  have hacked : (⟨"n1", 1, 1, .ReleaseTaskLock "t"⟩ : Call) ∈
      (ackedRun.foldl (Net.step bareDeps threeNodes) threeStart).acked := by decide
  exact ⟨hacked, (@acked_commands_kept bareDeps threeNodes (fun _ => stillEnv) memberManager ackedRun (by decide)
    ackedRun ackedRun (prefix_refl _) (prefix_refl _) _ hacked).1 "n2" (by decide) (by decide)⟩

/-- `n3` is then elected with the vote of `n2` alone and has nothing at index 1;
its own submit puts another command there at `n3`. -/
theorem acked_command_lost :
    let elect : List NetInput := ackedRun ++ [.act "n3" .armElection, .act "n3" .armElection, .deliver 9 stillEnv]
    let s := elect.foldl (Net.step bareDeps threeNodes) threeStart
    let s' := s.step bareDeps threeNodes (.deliver 10 stillEnv)
    let s'' := s'.step bareDeps threeNodes (.submit "n3" stillEnv (.ReleaseTaskLock "u"))
    (⟨"n1", 1, 1, .ReleaseTaskLock "t"⟩ : Call) ∈ s.acked ∧ (s.nodes "n3").role ≠ .Leader ∧
      (s'.nodes "n3").role = .Leader ∧ (1, ClusterCommand.ReleaseTaskLock "t") ∉ (s'.nodes "n3").command_log ∧
      1 ≤ (s''.nodes "n3").last_index ∧ (s''.nodes "n3").history.applied[0]? = some (.ReleaseTaskLock "u") ∧
      (s''.nodes "n1").history.applied[0]? = some (.ReleaseTaskLock "t") := by
  decide

end FerroDruid.Cluster
