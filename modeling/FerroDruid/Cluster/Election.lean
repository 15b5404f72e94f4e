import FerroDruid.Lib.Quorum
import FerroDruid.Cluster.Voting
/-!
# At most one leader per term

A leader holds the ballots of a quorum in its term, and a member casts one
ballot per term, so two leaders of one term are one node. The step to watch is
the one that changes a leader's term without making it a follower: a replicated
command or a restored snapshot. `election_safety` is about every run of the
network in which that does not happen, and in which no term goes back.
-/

namespace FerroDruid.Cluster

open FerroDruid.Lib ReplicationEngine List

variable (deps : Deps)

/-- The input leaves a leader in its term and takes no term back. -/
def TermSafe (e : ReplicationEngine) (i : NodeInput) : Prop :=
  TermKept deps e i ∧ (e.role = .Leader → ∀ t ∈ adoptedTerm deps e i, t = e.current_term)

instance (e : ReplicationEngine) (i : NodeInput) : Decidable (TermSafe deps e i) :=
  inferInstanceAs (Decidable (_ ∧ _))

/-- The condition on a step of the network. -/
def NetSafe (cl : Membership) (s : Net) (i : NetInput) : Prop :=
  ∀ p ∈ s.target i, p.1 ∈ cl.members → TermSafe deps (s.nodes p.1) p.2

instance (cl : Membership) (s : Net) (i : NetInput) : Decidable (NetSafe deps cl s i) :=
  inferInstanceAs (Decidable (∀ p ∈ s.target i, _))

/-! ## What a node sends and remembers -/

theorem nodeStep_ballots (e : ReplicationEngine) (i : NodeInput) {b : Nat × NodeId} (hb : b ∈ e.history.ballots) :
    b ∈ (nodeStep deps e i).2.history.ballots := by
  have hs := nodeStep_voter deps e i
  have key : ∀ v, VoterStep deps e i v → b ∈ v.ballots := by
    intro v hs
    cases hs with
    | answer env s c t hi ht =>
      unfold Voter.answer Voter.enter
      simp only
      split_ifs <;> first | exact mem_cons_of_mem _ hb | exact hb
    | armed ha => exact mem_cons_of_mem _ hb
    | alone ha hp => exact mem_cons_of_mem _ hb
    | elected inbox votes hi hv hm => exact mem_cons_of_mem _ hb
    | lost inbox votes hi hv => exact mem_cons_of_mem _ hb
    | _ => exact hb
  exact key _ hs

/-- A node that leads after a step led before it in the same term, or has just
counted a majority for its term. -/
theorem nodeStep_leader {e : ReplicationEngine} {i : NodeInput} (hs : TermSafe deps e i)
    (h : (nodeStep deps e i).2.role = .Leader) :
    (e.role = .Leader ∧ (nodeStep deps e i).2.current_term = e.current_term) ∨
      e.majority ≤ ((nodeStep deps e i).2.voter.tally (nodeStep deps e i).2.current_term).card := by
  have key : ∀ v, VoterStep deps e i v → v.role = .Leader →
      (e.role = .Leader ∧ v.current_term = e.current_term) ∨ e.majority ≤ (v.tally v.current_term).card := by
    intro v hv hl
    cases hv with
    | quiet => exact .inl ⟨hl, rfl⟩
    | adopt t ht => exact .inl ⟨hl, hs.2 hl t ht⟩
    | heed t ht => cases hl
    | down => cases hl
    | answer env s c t hi ht =>
      -- A request at a later term makes the node a follower.
      unfold Voter.answer Voter.enter at hl ⊢
      simp only at hl ⊢
      split_ifs at hl ⊢ <;> exact .inl ⟨hl, rfl⟩
    | counted env s w t hi hk ht => exact .inl ⟨hl, rfl⟩
    | promoted env s w t hi hk ht hr hm =>
      subst ht
      exact .inr hm
    | armed ha => cases hl
    | alone ha hp =>
      right
      have hself : e.config.node_id ∈ (e.voter.stand e.config.node_id).win.tally (succU64 e.current_term) :=
        Voter.mem_tally_stand.2 ⟨rfl, rfl⟩
      have hpos := Finset.card_pos.2 ⟨_, hself⟩
      have hmaj : e.majority = 1 := by simp only [majority, ReplicationEngine.total, hp, length_nil]
      rw [hmaj]
      exact hpos
    | elected inbox votes hi hv hm => exact .inr hm
    | lost inbox votes hi hv => cases hl
  exact key _ (nodeStep_voter deps e i) h

/-- A vote in the tally after a step was there before, is the node's own and on
record, or came in a granted response. -/
theorem nodeStep_tally {e : ReplicationEngine} {i : NodeInput} {t : Nat} {w : NodeId}
    (h : w ∈ (nodeStep deps e i).2.voter.tally t) :
    w ∈ e.voter.tally t ∨
      (w = e.config.node_id ∧ (t, w) ∈ (nodeStep deps e i).2.history.ballots) ∨
      (e.isKnown w ∧ ((∃ env s, i = .receive env s (.VoteResponse w t true)) ∨
        ∃ inbox, i = .startElection inbox ∧ .VoteResponse w t true ∈ inbox)) := by
  have key : ∀ v, VoterStep deps e i v → w ∈ v.tally t →
      w ∈ e.voter.tally t ∨ (w = e.config.node_id ∧ (t, w) ∈ v.ballots) ∨
        (e.isKnown w ∧ ((∃ env s, i = .receive env s (.VoteResponse w t true)) ∨
          ∃ inbox, i = .startElection inbox ∧ .VoteResponse w t true ∈ inbox)) := by
    have counted : ∀ env s w' t', i = .receive env s (.VoteResponse w' t' true) → e.isKnown w' →
        w ∈ (e.voter.count w' t').tally t → w ∈ e.voter.tally t ∨
          (e.isKnown w ∧ ∃ env s, i = .receive env s (.VoteResponse w t true)) := by
      intro env s w' t' hi hk hw
      rcases Voter.mem_tally_count.1 hw with ⟨rfl, rfl⟩ | hw
      · exact .inr ⟨hk, env, s, hi⟩
      · exact .inl hw
    have self : w ∈ (e.voter.stand e.config.node_id).tally t →
        w = e.config.node_id ∧ (t, w) ∈ (e.voter.stand e.config.node_id).ballots := by
      intro hw
      obtain ⟨rfl, rfl⟩ := Voter.mem_tally_stand.1 hw
      exact ⟨rfl, mem_cons_self⟩
    have inbox : ∀ inbox, i = .startElection inbox →
        w ∈ (e.voter.stand e.config.node_id).tally t ∨ (.VoteResponse w t true ∈ inbox ∧ e.isKnown w) →
        (w = e.config.node_id ∧ (t, w) ∈ (e.voter.stand e.config.node_id).ballots) ∨
          (e.isKnown w ∧ ∃ inbox, i = .startElection inbox ∧ .VoteResponse w t true ∈ inbox) := by
      intro inbox hi hw
      rcases hw with hw | ⟨hw, hk⟩
      · exact .inl (self hw)
      · exact .inr ⟨hk, inbox, hi, hw⟩
    intro v hv hw
    cases hv with
    | answer env s c t' hi ht =>
      left
      unfold Voter.answer Voter.enter at hw
      simp only at hw
      split_ifs at hw <;> exact hw
    | counted env s w' t' hi hk ht =>
      exact (counted env s w' t' hi hk hw).imp id fun h => .inr ⟨h.1, .inl h.2⟩
    | promoted env s w' t' hi hk ht hr hm =>
      exact (counted env s w' t' hi hk hw).imp id fun h => .inr ⟨h.1, .inl h.2⟩
    | armed ha => exact .inr (.inl (self hw))
    | alone ha hp => exact .inr (.inl (self hw))
    | elected ib votes hi hmem hm => exact .inr ((inbox ib hi (hmem t w hw)).imp id fun h => ⟨h.1, .inr h.2⟩)
    | lost ib votes hi hmem => exact .inr ((inbox ib hi (hmem t w hw)).imp id fun h => ⟨h.1, .inr h.2⟩)
    | _ => exact .inl hw
  exact key _ (nodeStep_voter deps e i) h

/-! ## The invariant of the network -/

/-- Members are what they were configured to be and keep their discipline; vote
messages name their sender, and a granted vote is on record for the node it was
sent to; a tally holds recorded votes only, and a leader's is a quorum. -/
structure ElectionInv (cl : Membership) (s : Net) : Prop where
  config : ∀ n ∈ cl.members, (s.nodes n).config = cl.config n
  disciplined : ∀ n ∈ cl.members, (s.nodes n).voter.Disciplined
  senders : ∀ m ∈ s.sent, m.src ∈ cl.members
  requests : ∀ m ∈ s.sent, ∀ c t, m.msg = .VoteRequest c t → c = m.src
  responses : ∀ m ∈ s.sent, ∀ w t, m.msg = .VoteResponse w t true →
    w = m.src ∧ (t, m.dst) ∈ (s.nodes w).history.ballots
  tally : ∀ n ∈ cl.members, ∀ t w, w ∈ (s.nodes n).voter.tally t →
    w ∈ cl.members ∧ (t, n) ∈ (s.nodes w).history.ballots
  leader : ∀ n ∈ cl.members, (s.nodes n).role = .Leader →
    ∃ Q, Quorum cl.members Q ∧ ∀ w ∈ Q, ((s.nodes n).current_term, n) ∈ (s.nodes w).history.ballots

namespace Membership

variable (cl : Membership)

theorem known_mem {n w : NodeId} (hn : n ∈ cl.members) {e : ReplicationEngine} (he : e.config = cl.config n)
    (hw : e.isKnown w) : w ∈ cl.members := by
  simp only [isKnown, he, cl.config_id n hn, decide_eq_true_eq] at hw
  rcases hw with rfl | hw
  · exact hn
  · have hp : w ∈ (cl.config n).peers.toFinset := mem_toFinset.2 hw
    rw [cl.peers_eq n hn] at hp
    exact Finset.mem_of_mem_erase hp

theorem majority_eq {n : NodeId} (hn : n ∈ cl.members) {e : ReplicationEngine} (he : e.config = cl.config n) :
    e.majority = cl.members.card / 2 + 1 := by
  have hlen : (cl.config n).peers.length = cl.members.card - 1 := by
    rw [← toFinset_card_of_nodup (cl.peers_nodup n hn), cl.peers_eq n hn, Finset.card_erase_of_mem hn]
  have hpos := Finset.card_pos.2 ⟨n, hn⟩
  unfold majority ReplicationEngine.total
  rw [he, hlen]
  omega

end Membership

variable {cl : Membership}

theorem electionInv_start (env : NodeId → StepEnv) (managers : NodeId → ClusterManager) :
    ElectionInv cl (Net.start cl env managers) where
  config _ _ := rfl
  disciplined n _ := new_disciplined (env n) (cl.config n) (managers n)
  senders _ h := absurd h not_mem_nil
  requests _ h := absurd h not_mem_nil
  responses _ h := absurd h not_mem_nil
  tally _ _ t w h := by
    have : ¬ w ∈ (∅ : Finset NodeId) := Finset.notMem_empty w
    exact absurd h this
  leader n hn h := by cases h

theorem electionInv_step {s : Net} {i : NetInput} (hs : NetSafe deps cl s i) (h : ElectionInv cl s) :
    ElectionInv cl (s.step deps cl i) := by
  rcases s.step_cases deps cl i with he | ⟨n, j, ht, hn, hnodes, hsent⟩
  · rwa [he]
  have hsafe := hs (n, j) ht hn
  have hid : (s.nodes n).config.node_id = n := by rw [h.config n hn, cl.config_id n hn]
  -- Ballots stay on record, at every node.
  have grow : ∀ w b, b ∈ (s.nodes w).history.ballots → b ∈ ((s.step deps cl i).nodes w).history.ballots := by
    intro w b hb
    rw [hnodes]
    by_cases hw : w = n
    · subst hw
      rw [Function.update_self]
      exact nodeStep_ballots deps _ _ hb
    · rwa [Function.update_of_ne hw]
  have new : (s.step deps cl i).nodes n = (nodeStep deps (s.nodes n) j).2 := by rw [hnodes, Function.update_self]
  have old : ∀ k, k ≠ n → (s.step deps cl i).nodes k = s.nodes k := fun k hk => by
    rw [hnodes, Function.update_of_ne hk]
  -- A response that reached the node is on record for it.
  have responded : ∀ src w t, ⟨src, n, .VoteResponse w t true⟩ ∈ s.sent →
      (t, n) ∈ ((s.step deps cl i).nodes w).history.ballots := fun src w t hm =>
    grow w _ (h.responses _ hm w t rfl).2
  have htally : ∀ t w, w ∈ ((s.step deps cl i).nodes n).voter.tally t →
      w ∈ cl.members ∧ (t, n) ∈ ((s.step deps cl i).nodes w).history.ballots := by
    intro t w hw
    rw [new] at hw
    rcases nodeStep_tally deps hw with hw | ⟨rfl, hb⟩ | ⟨hk, ⟨env, src, rfl⟩ | ⟨inbox, rfl, hm⟩⟩
    · exact ⟨(h.tally n hn t w hw).1, grow w _ (h.tally n hn t w hw).2⟩
    · rw [hid] at hb ⊢
      exact ⟨hn, by rw [new]; exact hb⟩
    · exact ⟨cl.known_mem hn (h.config n hn) hk, responded src w t (Net.target_receive ht)⟩
    · obtain ⟨src, hsrc⟩ := Net.target_inbox ht hm
      exact ⟨cl.known_mem hn (h.config n hn) hk, responded src w t hsrc⟩
  refine ⟨?_, ?_, ?_, ?_, ?_, ?_, ?_⟩
  · intro k hk
    by_cases hkn : k = n
    · subst hkn
      rw [new, nodeStep_config, h.config k hk]
    · rw [old k hkn, h.config k hk]
  · intro k hk
    by_cases hkn : k = n
    · subst hkn
      rw [new]
      exact (disciplined_step deps hsafe.1 (h.disciplined k hk)).1
    · rw [old k hkn]
      exact h.disciplined k hk
  · intro m hm
    rw [hsent] at hm
    rcases mem_append.1 hm with hm | hm
    · exact h.senders m hm
    · obtain ⟨⟨dst, msg⟩, -, rfl⟩ := mem_map.1 hm
      exact hn
  · intro m hm c t hmsg
    rw [hsent] at hm
    rcases mem_append.1 hm with hm | hm
    · exact h.requests m hm c t hmsg
    · obtain ⟨⟨dst, msg⟩, hout, rfl⟩ := mem_map.1 hm
      have hsend := nodeStep_sends deps hout
      subst hmsg
      cases hsend
      exact hid
  · intro m hm w t hmsg
    rw [hsent] at hm
    rcases mem_append.1 hm with hm | hm
    · exact ⟨(h.responses m hm w t hmsg).1, grow w _ (h.responses m hm w t hmsg).2⟩
    · obtain ⟨⟨dst, msg⟩, hout, rfl⟩ := mem_map.1 hm
      have hsend := nodeStep_sends deps hout
      subst hmsg
      cases hsend with
      | granted env _ c _ hi hb =>
        -- The request came from the candidate it names.
        subst hi
        have hc : c = dst := h.requests _ (Net.target_receive ht) c t rfl
        subst hc
        refine ⟨hid, ?_⟩
        rw [hid, new]
        exact hb
  · intro k hk t w hw
    by_cases hkn : k = n
    · subst hkn
      exact htally t w hw
    · rw [old k hkn] at hw
      exact ⟨(h.tally k hk t w hw).1, grow w _ (h.tally k hk t w hw).2⟩
  · intro k hk hl
    by_cases hkn : k = n
    · subst hkn
      rw [new] at hl
      rcases nodeStep_leader deps hsafe hl with ⟨hl, hterm⟩ | hm
      · obtain ⟨Q, hQ, hb⟩ := h.leader k hk hl
        exact ⟨Q, hQ, fun w hw => by rw [new, hterm]; exact grow w _ (hb w hw)⟩
      · rw [cl.majority_eq hk (h.config k hk), ← new] at hm
        refine ⟨_, .of_majority (fun w hw => (htally _ w hw).1) hm, fun w hw => ?_⟩
        exact (htally _ w hw).2
    · rw [old k hkn] at hl ⊢
      obtain ⟨Q, hQ, hb⟩ := h.leader k hk hl
      exact ⟨Q, hQ, fun w hw => grow w _ (hb w hw)⟩

/-- In a state that satisfies the invariant, a term has one leader. -/
theorem ElectionInv.one_leader {s : Net} (h : ElectionInv cl s) {n n' : NodeId} (hn : n ∈ cl.members)
    (hn' : n' ∈ cl.members) (hl : (s.nodes n).role = .Leader) (hl' : (s.nodes n').role = .Leader)
    (ht : (s.nodes n).current_term = (s.nodes n').current_term) : n = n' := by
  obtain ⟨Q, hQ, hb⟩ := h.leader n hn hl
  obtain ⟨Q', hQ', hb'⟩ := h.leader n' hn' hl'
  rw [← ht] at hb'
  exact hQ.unique (fun v c => ((s.nodes n).current_term, c) ∈ (s.nodes v).history.ballots)
    (fun v hv c c' => (h.disciplined v hv).unique _ c c') hb hQ' hb'

/-- Along every run whose inputs leave leaders in their term and take no term
back, no state has two leaders of one term. -/
theorem election_safety (env : NodeId → StepEnv) (managers : NodeId → ClusterManager) (is : List NetInput)
    (hg : Guarded (Net.step deps cl) (NetSafe deps cl) (Net.start cl env managers) is) :
    ∀ js, js <+: is → ∀ n ∈ cl.members, ∀ n' ∈ cl.members,
      let s := js.foldl (Net.step deps cl) (Net.start cl env managers)
      (s.nodes n).role = .Leader → (s.nodes n').role = .Leader →
        (s.nodes n).current_term = (s.nodes n').current_term → n = n' := by
  intro js hjs n hn n' hn' s hl hl' ht
  have hinv : ElectionInv cl s :=
    (hg.shorten hjs).inv (ElectionInv cl) (fun _ _ hs h => electionInv_step deps hs h)
      (electionInv_start env managers)
  exact hinv.one_leader hn hn' hl hl' ht

/-! ## Three nodes -/

def threeConfig (n : NodeId) : ReplicationConfig := memberConfig n (["n1", "n2", "n3"].filter (· ≠ n))

def threeNodes : Membership where
  members := {"n1", "n2", "n3"}
  config := threeConfig
  config_id _ _ := rfl
  peers_nodup := by decide
  peers_eq := by decide

def threeStart : Net := Net.start threeNodes (fun _ => stillEnv) memberManager

/-- `n1` is elected at term 1, then `n2` at term 2. -/
def twoElections : List NetInput :=
  [.act "n1" .armElection, .deliver 0 stillEnv, .deliver 2 stillEnv,
    .act "n2" .armElection, .deliver 4 stillEnv, .deliver 5 stillEnv]

/-- After both elections each leads its own term. -/
theorem election_safety_two_elections :
    let s := twoElections.foldl (Net.step bareDeps threeNodes) threeStart
    (s.nodes "n1").role = .Leader ∧ (s.nodes "n2").role = .Leader ∧
      ∀ n ∈ threeNodes.members, ∀ n' ∈ threeNodes.members, (s.nodes n).role = .Leader → (s.nodes n').role = .Leader →
        (s.nodes n).current_term = (s.nodes n').current_term → n = n' :=
  ⟨by decide, by decide, fun n hn n' hn' =>
    election_safety bareDeps (fun _ => stillEnv) memberManager twoElections (by decide) _ (prefix_refl _) n hn n' hn'⟩

/-- A command of the second leader takes the first one to term 2, where both
lead. -/
theorem two_leaders :
    let s := (twoElections ++ [NetInput.submit "n2" stillEnv (.ReleaseTaskLock "t"), .deliver 6 stillEnv]).foldl
      (Net.step bareDeps threeNodes) threeStart
    "n1" ∈ threeNodes.members ∧ "n2" ∈ threeNodes.members ∧ (s.nodes "n1").role = .Leader ∧
      (s.nodes "n2").role = .Leader ∧ (s.nodes "n1").current_term = (s.nodes "n2").current_term := by
  decide

end FerroDruid.Cluster
