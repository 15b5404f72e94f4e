import FerroDruid.Coordinator.Accounting
import FerroDruid.Coordinator.Holders
import Mathlib.Algebra.BigOperators.Group.Finset.Basic
/-!
# Balancing keeps copies

A segment that has its count in every tier it is wanted in is trimmed and pruned
down to these counts and not below; a segment that has not only gets copies. A
move between servers adds its copy before it takes the other.
-/

namespace FerroDruid.Coordinator

open Lib List

/-- Every tier has its count. -/
def Satisfied (id : String) (desired : List (String × ℕ)) (b : Board) : Prop := ∀ e ∈ desired, e.2 ≤ (b.tierSet id e.1).card

variable {desired : List (String × ℕ)}

theorem allSatisfied_iff {b : Board} {id : String} :
    allSatisfied b id desired = true ↔ Satisfied id desired b := by
  simp [allSatisfied, Satisfied, Board.countTierReplicas_eq]

/-- The counts of different tiers add up to no more than all holders. -/
theorem sum_le_holders {b : Board} {id : String} (hnodup : (desired.map (·.1)).Nodup)
    (h : Satisfied id desired b) : (desired.map (·.2)).sum ≤ (b.holderSet id).card := by
  have hgen : ∀ (es : List (String × ℕ)) (rest : Finset String), (es.map (·.1)).Nodup →
      (∀ e ∈ es, e.2 ≤ (rest.filter fun name => b.tierOf name = some e.1).card) → (es.map (·.2)).sum ≤ rest.card := by
    intro es
    induction es with
    | nil => exact fun _ _ _ => Nat.zero_le _
    | cons e es ih =>
      intro rest hes hle
      obtain ⟨hnotin, hes⟩ := nodup_cons.1 hes
      rw [forall_mem_cons] at hle
      -- the other tiers are in what is left without this one
      have hrest := ih (rest.filter fun name => ¬ b.tierOf name = some e.1) hes fun e' he' => by
        have hne : e'.1 ≠ e.1 := fun heq => hnotin (mem_map.2 ⟨e', he', heq⟩)
        refine (hle.2 e' he').trans (Finset.card_le_card fun name hname => ?_)
        rw [Finset.mem_filter] at hname
        rw [Finset.mem_filter, Finset.mem_filter]
        refine ⟨⟨hname.1, fun heq => hne ?_⟩, hname.2⟩
        exact Option.some.inj (hname.2.symm.trans heq)
      have hsplit := Finset.card_filter_add_card_filter_not (s := rest) fun name => b.tierOf name = some e.1
      rw [map_cons, sum_cons]
      omega
  exact hgen desired (b.holderSet id) hnodup h

/-- Taking one copy from each of some servers. -/
structure Removed (id : String) (names : List String) (b0 b : Board) : Prop where
  others : ∀ n, n ∉ names → b.copies n id = b0.copies n id
  tiers : ∀ n, b.tierOf n = b0.tierOf n

theorem removed_refl (id : String) (names : List String) (b : Board) : Removed id names b b := ⟨fun _ _ => rfl, fun _ => rfl⟩

variable {b0 : Board}

theorem removed_step {id : String} {names : List String} {b b' : Board} {e : SegmentLoadAction} (hmove : Moves b e b')
    (hP : ∃ name ∈ names, e = .drop name id) (h : Removed id names b0 b) : Removed id names b0 b' := by
  obtain ⟨name, hname, rfl⟩ := hP
  refine ⟨fun n hn => ?_, fun n => (tierOf_of_moves hmove n).trans (h.tiers n)⟩
  have hne : ¬ (n = name ∧ id = id) := fun heq => hn (heq.1 ▸ hname)
  rw [copies_drop hmove, if_neg hne, h.others n hn]
  rfl

/-- What no tier misses keeps it satisfied. -/
theorem satisfied_of_removed {id : String} {names : List String} {b : Board} (h : Removed id names b0 b)
    (hspare : ∀ e ∈ desired, e.2 + ((b0.tierSet id e.1) ∩ names.toFinset).card ≤ (b0.tierSet id e.1).card) : Satisfied id desired b := by
  intro e he
  have hsub : (b0.tierSet id e.1) \ names.toFinset ⊆ b.tierSet id e.1 := by
    intro n hn
    rw [Finset.mem_sdiff, Board.mem_tierSet, mem_toFinset] at hn
    rw [Board.mem_tierSet, h.others n hn.2, h.tiers]
    exact hn.1
  have hcard := Finset.card_le_card hsub
  have hsplit := Finset.card_sdiff_add_card_inter (b0.tierSet id e.1) names.toFinset
  have := hspare e he
  omega

/-- What only gains copies keeps its tiers satisfied. -/
theorem satisfied_of_mono {id : String} {b : Board} (hcopies : ∀ n, b0.copies n id ≤ b.copies n id)
    (htiers : ∀ n, b.tierOf n = b0.tierOf n) (h : Satisfied id desired b0) : Satisfied id desired b := by
  refine fun e he => (h e he).trans (Finset.card_le_card fun n hn => ?_)
  rw [Board.mem_tierSet] at hn ⊢
  exact ⟨hn.1.trans_le (hcopies n), (htiers n).trans hn.2⟩

theorem mem_tierServers {c : Cycle} {tier name : String} :
    (∃ cand ∈ tierServers c tier, cand.name = name) ↔ c.board.tierOf name = some tier := by
  simp only [tierServers, mem_filter, ServerRegistry.mem_list, Board.tierOf, Option.map_eq_some_iff, decide_eq_true_eq]
  constructor
  · rintro ⟨cand, ⟨hget, htier⟩, rfl⟩
    exact ⟨cand, hget, htier⟩
  · rintro ⟨server, hget, htier⟩
    have hname := c.board.registry.named name server hget
    exact ⟨server, ⟨hname ▸ hget, htier⟩, hname⟩

theorem nodup_tierServers (c : Cycle) (tier : String) : ((tierServers c tier).map (·.name)).Nodup :=
  c.board.registry.nodup_names.sublist (filter_sublist.map _)

theorem heldBy_tierServers (c : Cycle) (tier id : String) :
    (heldBy c.board (tierServers c tier) id).Nodup ∧
      (heldBy c.board (tierServers c tier) id).toFinset = c.board.tierSet id tier ∧
      (heldBy c.board (tierServers c tier) id).length = (c.board.tierSet id tier).card := by
  have hnodup : (heldBy c.board (tierServers c tier) id).Nodup := (nodup_tierServers c tier).filter _
  have hset : (heldBy c.board (tierServers c tier) id).toFinset = c.board.tierSet id tier := by
    ext n
    rw [mem_toFinset, mem_heldBy, mem_tierServers, Board.mem_tierSet, and_comm]
  exact ⟨hnodup, hset, by rw [← hset, toFinset_card_of_nodup hnodup]⟩

section

variable {chrono : Chrono} {cost : CostModel} {seg : SegmentMetadataRow} {J : Board → Prop}

variable {c : Cycle}

/-- Loads keep what gains of copies keep. -/
theorem addReplicas_history {interval : Interval} {size : UInt64} {candidates : List ServerInfo} (missing : ℕ)
    (hJ : ∀ b, (∀ n, c.board.copies n seg.id ≤ b.copies n seg.id) → (∀ n, b.tierOf n = c.board.tierOf n) → J b)
    (hhist : ∀ e ∈ c.history, J e.2) :
    ∀ e ∈ (addReplicas cost seg interval size candidates missing c).history, J e.2 := by
  refine (addReplicas_grows seg interval size candidates missing c).inv_history
    (I := fun b => (∀ n, c.board.copies n seg.id ≤ b.copies n seg.id) ∧ ∀ n, b.tierOf n = c.board.tierOf n)
    (fun b e b' hmove hP hI => ⟨fun n => ?_, fun n => (tierOf_of_moves hmove n).trans (hI.2 n)⟩) ⟨fun _ => le_rfl, fun _ => rfl⟩
    (fun b hI => hJ b hI.1 hI.2) hhist
  obtain ⟨name, a, -, rfl, -⟩ := hP
  rw [copies_load hmove]
  exact (hI.1 n).trans (Nat.le_add_right _ _)

/-- A tier that can spare the copies that go stays satisfied. -/
theorem removeAssignments_satisfied {desired : List (String × ℕ)} {names : List String}
    (hspare : ∀ e ∈ desired, e.2 + ((c.board.tierSet seg.id e.1) ∩ names.toFinset).card ≤ (c.board.tierSet seg.id e.1).card)
    (hJ : ∀ b, Satisfied seg.id desired b → J b) (hhist : ∀ e ∈ c.history, J e.2) :
    let c' := names.foldl (fun c name => c.removeAssignment name seg.id) c
    Satisfied seg.id desired c'.board ∧ ∀ e ∈ c'.history, J e.2 := by
  have hgrows := removeAssignments_grows seg.id names c
  have hstep : ∀ b e b', Moves b e b' → (∃ name ∈ names, e = .drop name seg.id) → Removed seg.id names c.board b →
      Removed seg.id names c.board b' := fun _ _ _ => removed_step
  refine ⟨satisfied_of_removed (hgrows.inv hstep (removed_refl _ _ _)) hspare, ?_⟩
  exact hgrows.inv_history hstep (removed_refl _ _ _) (fun b hI => hJ b (satisfied_of_removed hI hspare)) hhist

/-- A tier's replicas change and all tiers stay satisfied. -/
theorem ensureReplicas_satisfied {desired : List (String × ℕ)} (hnodup : (desired.map (·.1)).Nodup) {entry : String × ℕ}
    (hentry : entry ∈ desired) (allow : Bool) (interval : Interval) (size : UInt64) {c : Cycle} (hc : Satisfied seg.id desired c.board)
    (hJ : ∀ b, Satisfied seg.id desired b → J b) (hhist : ∀ e ∈ c.history, J e.2) :
    let c' := ensureReplicas cost seg interval size (tierServers c entry.1) entry.2 allow c
    Satisfied seg.id desired c'.board ∧ ∀ e ∈ c'.history, J e.2 := by
  intro c'
  obtain ⟨hheld, hset, hlen⟩ := heldBy_tierServers c entry.1 seg.id
  rcases @ensureReplicas_cases cost seg interval size _ (nodup_tierServers c entry.1) entry.2 allow c with
    ⟨-, -, heq⟩ | ⟨hsurplus, -, names, hnames, hmem, hcount, heq⟩ | ⟨-, heq⟩
  · rw [show c' = c from heq]
    exact ⟨hc, hhist⟩
  · rw [show c' = _ from heq]
    have hspare : ∀ e ∈ desired, e.2 + ((c.board.tierSet seg.id e.1) ∩ names.toFinset).card ≤ (c.board.tierSet seg.id e.1).card := by
      intro e he
      by_cases htier : e.1 = entry.1
      · have heq : e = entry := inj_on_of_nodup_map hnodup he hentry htier
        have hinter : ((c.board.tierSet seg.id e.1) ∩ names.toFinset).card ≤ names.toFinset.card :=
          Finset.card_le_card Finset.inter_subset_right
        rw [toFinset_card_of_nodup hnames] at hinter
        rw [heq] at hinter ⊢
        omega
      · have hinter : (c.board.tierSet seg.id e.1) ∩ names.toFinset = ∅ := by
          rw [Finset.eq_empty_iff_forall_notMem]
          intro n hn
          rw [Finset.mem_inter, mem_toFinset, Board.mem_tierSet] at hn
          have hin := hmem n hn.2
          rw [← mem_toFinset, hset, Board.mem_tierSet] at hin
          exact htier (Option.some.inj (hn.1.2.symm.trans hin.2))
        rw [hinter, Finset.card_empty]
        exact hc e he
    exact removeAssignments_satisfied hspare hJ hhist
  · rw [show c' = _ from heq]
    refine ⟨satisfied_of_mono (fun n => addReplicas_mono _ c n seg.id) (addReplicas_grows seg _ _ _ _ c).tierOf hc, ?_⟩
    exact addReplicas_history _ (fun b hmono htiers => hJ b (satisfied_of_mono hmono htiers hc)) hhist

theorem ensureTiers_satisfied {desired : List (String × ℕ)} (hnodup : (desired.map (·.1)).Nodup) (allow : Bool) {c : Cycle}
    (hc : Satisfied seg.id desired c.board) (hJ : ∀ b, Satisfied seg.id desired b → J b) (hhist : ∀ e ∈ c.history, J e.2) :
    Satisfied seg.id desired (ensureTiers chrono cost seg allow desired c).board ∧
      ∀ e ∈ (ensureTiers chrono cost seg allow desired c).history, J e.2 := by
  suffices hgen : ∀ (es : List (String × ℕ)) (c : Cycle), (∀ e ∈ es, e ∈ desired) → Satisfied seg.id desired c.board →
      (∀ e ∈ c.history, J e.2) → Satisfied seg.id desired (ensureTiers chrono cost seg allow es c).board ∧
        ∀ e ∈ (ensureTiers chrono cost seg allow es c).history, J e.2 from hgen desired c (fun _ => id) hc hhist
  intro es
  induction es with
  | nil => exact fun c _ hc hhist => ⟨hc, hhist⟩
  | cons entry es ih =>
    intro c hes hc hhist
    rw [forall_mem_cons] at hes
    obtain ⟨hsat, hh⟩ := @ensureReplicas_satisfied cost seg J desired hnodup entry hes.1 allow (segmentInterval chrono seg)
      (segmentSizeBytes seg) c hc hJ hhist
    exact ih _ hes.2 hsat hh

/-- What is pruned is in no tier that is wanted. -/
theorem pruneOtherTiers_satisfied {desired : List (String × ℕ)} (hc : Satisfied seg.id desired c.board)
    (hJ : ∀ b, Satisfied seg.id desired b → J b) (hhist : ∀ e ∈ c.history, J e.2) :
    Satisfied seg.id desired (c.pruneOtherTiers seg.id (desired.map (·.1))).board ∧
      ∀ e ∈ (c.pruneOtherTiers seg.id (desired.map (·.1))).history, J e.2 := by
  unfold Cycle.pruneOtherTiers
  generalize hnames : (c.board.holders seg.id).filter
    (fun name => !(c.board.registry.get name).any fun s => s.tier ∈ desired.map (·.1)) = names
  have hspare : ∀ e ∈ desired, e.2 + ((c.board.tierSet seg.id e.1) ∩ names.toFinset).card ≤ (c.board.tierSet seg.id e.1).card := by
    intro e he
    have hinter : (c.board.tierSet seg.id e.1) ∩ names.toFinset = ∅ := by
      rw [Finset.eq_empty_iff_forall_notMem]
      intro n hn
      rw [Finset.mem_inter, mem_toFinset, ← hnames, mem_filter, Board.mem_tierSet, Board.tierOf,
        Option.map_eq_some_iff] at hn
      obtain ⟨⟨-, server, hserver, htier⟩, -, hoff⟩ := hn
      rw [hserver] at hoff
      simp only [Option.any_some, Bool.not_eq_true', decide_eq_false_iff_not] at hoff
      exact hoff (mem_map.2 ⟨e, he, htier.symm⟩)
    rw [hinter, Finset.card_empty]
    exact hc e he
  exact removeAssignments_satisfied hspare hJ hhist

theorem ensureTiers_cons (allow : Bool) (entry : String × ℕ) (es : List (String × ℕ)) (c : Cycle) :
    ensureTiers chrono cost seg allow (entry :: es) c = ensureTiers chrono cost seg allow es
      (ensureReplicas cost seg (segmentInterval chrono seg) (segmentSizeBytes seg) (tierServers c entry.1) entry.2 allow c) := rfl

/-- Without surplus drops there are only loads. -/
theorem ensureTiers_mono {b0 : Board} (desired : List (String × ℕ)) {c : Cycle}
    (hcopies : ∀ n, b0.copies n seg.id ≤ c.board.copies n seg.id)
    (hJ : ∀ b, (∀ n, b0.copies n seg.id ≤ b.copies n seg.id) → J b) (hhist : ∀ e ∈ c.history, J e.2) :
    (∀ n, b0.copies n seg.id ≤ (ensureTiers chrono cost seg false desired c).board.copies n seg.id) ∧
      ∀ e ∈ (ensureTiers chrono cost seg false desired c).history, J e.2 := by
  induction desired generalizing c with
  | nil => exact ⟨hcopies, hhist⟩
  | cons entry es ih =>
    rw [ensureTiers_cons]
    rcases @ensureReplicas_cases cost seg (segmentInterval chrono seg) (segmentSizeBytes seg) _ (nodup_tierServers c entry.1) entry.2 false c
      with ⟨-, -, heq⟩ | ⟨-, hallow, -⟩ | ⟨-, heq⟩
    · rw [heq]
      exact ih hcopies hhist
    · cases hallow
    · rw [heq]
      refine ih (fun n => (hcopies n).trans (addReplicas_mono _ c n seg.id)) ?_
      exact addReplicas_history _ (fun b hmono _ => hJ b fun n => (hcopies n).trans (hmono n)) hhist

/-! ## A cycle -/

/-- How many servers hold a segment at least: as many as before, or as many as
the tiers ask for; with a broadcast as many as before. -/
def guaranteed (before : ℕ) : DesiredPlacement → ℕ
  | .load tierReplicants => min before ((desiredTiers tierReplicants).map (·.2)).sum
  | .broadcast => before
  | .drop => 0

def Keeps (id : String) (count : ℕ) (b : Board) : Prop := count ≤ (b.holderSet id).card

theorem guaranteed_le (before : ℕ) (placement : DesiredPlacement) : guaranteed before placement ≤ before := by
  cases placement with
  | load => exact min_le_left _ _
  | broadcast => exact le_rfl
  | drop => exact Nat.zero_le _

theorem holderSet_congr {id : String} {b b' : Board} (hcopies : ∀ n, b'.copies n id = b.copies n id) :
    b'.holderSet id = b.holderSet id := by
  ext n
  rw [Board.mem_holderSet, Board.mem_holderSet, hcopies n]

theorem card_le_of_mono {id : String} {b0 b : Board} (hcopies : ∀ n, b0.copies n id ≤ b.copies n id) :
    (b0.holderSet id).card ≤ (b.holderSet id).card := by
  refine Finset.card_le_card fun n hn => ?_
  rw [Board.mem_holderSet] at hn ⊢
  exact hn.trans_le (hcopies n)

theorem nodup_desiredTiers (tierReplicants : HashMap String ℕ) : ((desiredTiers tierReplicants).map (·.1)).Nodup := by
  rw [desiredTiers, map_map]
  exact tierReplicants.nodupKeys.sublist filter_sublist

/-- The actions for a segment keep its copies. -/
theorem placeSegment_keeps (placement : DesiredPlacement) {c : Cycle}
    (hhist : ∀ e ∈ c.history, Keeps seg.id (guaranteed (c.board.holderSet seg.id).card placement) e.2) :
    Keeps seg.id (guaranteed (c.board.holderSet seg.id).card placement) (placeSegment chrono cost seg c placement).board ∧
      ∀ e ∈ (placeSegment chrono cost seg c placement).history,
        Keeps seg.id (guaranteed (c.board.holderSet seg.id).card placement) e.2 := by
  have hmono : ∀ b : Board, (∀ n, c.board.copies n seg.id ≤ b.copies n seg.id) →
      Keeps seg.id (guaranteed (c.board.holderSet seg.id).card placement) b :=
    fun b h => (guaranteed_le _ placement).trans (card_le_of_mono h)
  cases placement with
  | drop => exact ⟨Nat.zero_le _, fun _ _ => Nat.zero_le _⟩
  | broadcast =>
    unfold placeSegment
    rcases @ensureReplicas_cases cost seg (segmentInterval chrono seg) (segmentSizeBytes seg) c.board.registry.list
      c.board.registry.nodup_names c.board.registry.list.length true c with ⟨-, hallow, -⟩ | ⟨hsurplus, -⟩ | ⟨-, heq⟩
    · cases hallow
    · -- there are no more holders among the servers than servers
      have hle : (heldBy c.board c.board.registry.list seg.id).length ≤ c.board.registry.list.length := by
        exact (length_filter_le _ _).trans (length_map _).le
      omega
    · rw [heq]
      exact ⟨hmono _ fun n => addReplicas_mono _ c n seg.id, addReplicas_history _ (fun b h _ => hmono b h) hhist⟩
  | load tierReplicants =>
    have hnodup := nodup_desiredTiers tierReplicants
    unfold placeSegment
    simp only
    split_ifs with hempty hall
    · have hzero : guaranteed (c.board.holderSet seg.id).card (.load tierReplicants) = 0 := by simp [guaranteed, hempty]
      rw [hzero]
      exact ⟨Nat.zero_le _, fun _ _ => Nat.zero_le _⟩
    · have hloaded := @ensureTiers_mono chrono cost seg _ c.board (desiredTiers tierReplicants) c (fun _ => le_rfl) hmono hhist
      have hsatisfied : ∀ b, Satisfied seg.id (desiredTiers tierReplicants) b →
          Keeps seg.id (guaranteed (c.board.holderSet seg.id).card (.load tierReplicants)) b :=
        fun b hb => (min_le_right _ _).trans (sum_le_holders hnodup hb)
      have htrimmed := @ensureTiers_satisfied chrono cost seg _ _ hnodup true _ (allSatisfied_iff.1 hall) hsatisfied hloaded.2
      have hpruned := pruneOtherTiers_satisfied htrimmed.1 hsatisfied htrimmed.2
      exact ⟨hsatisfied _ hpruned.1, hpruned.2⟩
    · have hloaded := @ensureTiers_mono chrono cost seg _ c.board (desiredTiers tierReplicants) c (fun _ => le_rfl) hmono hhist
      exact ⟨hmono _ hloaded.1, hloaded.2⟩

/-- Moves of other segments keep a segment's holders. -/
theorem Grows.keeps_of_ne {P : Board → SegmentLoadAction → Board → Prop} {c' : Cycle} (h : Grows P c c') {id : String} {count : ℕ}
    (hP : ∀ b e b', P b e b' → id ≠ e.segmentId) (hc : Keeps id count c.board) (hhist : ∀ e ∈ c.history, Keeps id count e.2) :
    c'.board.holderSet id = c.board.holderSet id ∧ ∀ e ∈ c'.history, Keeps id count e.2 := by
  have hstep : ∀ b e b', Moves b e b' → P b e b' → b.holderSet id = c.board.holderSet id → b'.holderSet id = c.board.holderSet id :=
    fun b e b' hmove he hI => (holderSet_congr (Coordinator.copies_of_ne hmove (hP _ _ _ he))).trans hI
  refine ⟨h.inv hstep rfl, h.inv_history hstep rfl (fun b hb => ?_) hhist⟩
  rwa [Keeps, hb]

/-- The segments that are placed in turn keep the copies of one of them. -/
theorem placeSegments_keeps {now : ℤ} {rulesByDs : HashMap String (List LoadRule)} {placement : DesiredPlacement}
    (hplacement : placementOf chrono now rulesByDs seg = .ok placement) {before : ℕ} (segs : List SegmentMetadataRow) {c : Cycle}
    (hids : (segs.map (·.id)).Nodup) (hseg : seg ∈ segs) (hbefore : before = (c.board.holderSet seg.id).card)
    (hhist : ∀ e ∈ c.history, Keeps seg.id (guaranteed before placement) e.2) :
    ∀ e ∈ (placeSegments chrono cost now rulesByDs segs c).1.history, Keeps seg.id (guaranteed before placement) e.2 := by
  induction segs generalizing c with
  | nil => cases hseg
  | cons s segs ih =>
    obtain ⟨hs, hids⟩ := nodup_cons.1 hids
    unfold placeSegments
    cases hp : placementOf chrono now rulesByDs s with
    | error e => exact hhist
    | ok p =>
      rcases mem_cons.1 hseg with rfl | hmem
      · rw [hplacement] at hp
        cases hp
        subst hbefore
        obtain ⟨hend, hh⟩ := @placeSegment_keeps chrono cost seg placement c hhist
        -- the rest are other segments
        refine ((placeSegments_grows now rulesByDs segs _).keeps_of_ne (fun b e b' hP heq => hs ?_) hend hh).2
        obtain ⟨s, hsmem, hmoves⟩ := hP
        exact mem_map.2 ⟨s, hsmem, (heq.trans (movesOf_segmentId hmoves)).symm⟩
      · have hne : seg.id ≠ s.id := fun heq => hs (mem_map.2 ⟨seg, hmem, heq⟩)
        have hstart : Keeps seg.id (guaranteed before placement) c.board := hbefore ▸ guaranteed_le _ _
        obtain ⟨hsame, hh⟩ := (@placeSegment_grows chrono cost s c p).keeps_of_ne
          (fun b e b' hP heq => hne (heq.trans (movesOf_segmentId hP))) hstart hhist
        exact ih hids hmem (hsame ▸ hbefore) hh

end

/-! ## A rebalance -/

/-- The board after the first actions of a history. -/
def boardAfter (b : Board) (hs : List (SegmentLoadAction × Board)) : Board := hs.foldl (fun _ e => e.2) b

/-- Moves of copies, seen from one segment: no server holds it less after a load,
or after the drop that follows, than before that load. -/
inductive Migrates (id : String) : Board → List (SegmentLoadAction × Board) → Board → Prop where
  | nil (b : Board) : Migrates id b [] b
  | copy {b b1 t : Board} {dest segmentId : String} {hs : List (SegmentLoadAction × Board)}
    (loaded : (b.holderSet id).card ≤ (b1.holderSet id).card) (rest : Migrates id b1 hs t) :
    Migrates id b ((.load dest segmentId, b1) :: hs) t
  | move {b b1 b2 t : Board} {dest src segmentId : String} {hs : List (SegmentLoadAction × Board)}
    (loaded : (b.holderSet id).card ≤ (b1.holderSet id).card) (dropped : (b.holderSet id).card ≤ (b2.holderSet id).card)
    (rest : Migrates id b2 hs t) : Migrates id b ((.load dest segmentId, b1) :: (.drop src segmentId, b2) :: hs) t

namespace Migrates

variable {id : String} {b t u : Board} {hs hs' : List (SegmentLoadAction × Board)}

theorem append (h : Migrates id b hs t) (h' : Migrates id t hs' u) : Migrates id b (hs ++ hs') u := by
  induction h with
  | nil => exact h'
  | copy loaded _ ih => exact .copy loaded (ih h')
  | move loaded dropped _ ih => exact .move loaded dropped (ih h')

/-- There are no fewer holders than there were. -/
theorem keeps (h : Migrates id b hs t) : ∀ e ∈ hs, Keeps id (b.holderSet id).card e.2 := by
  induction h with
  | nil => exact nofun
  | copy loaded _ ih =>
    rw [forall_mem_cons]
    exact ⟨loaded, fun e he => loaded.trans (ih e he)⟩
  | move loaded dropped _ ih =>
    rw [forall_mem_cons, forall_mem_cons]
    exact ⟨loaded, dropped, fun e he => dropped.trans (ih e he)⟩

/-- There are no fewer holders than before any load. -/
theorem keeps_of_load (h : Migrates id b hs t) {pre post : List (SegmentLoadAction × Board)} {dest segmentId : String} {b' : Board}
    (heq : hs = pre ++ (.load dest segmentId, b') :: post) :
    ∀ e ∈ (.load dest segmentId, b') :: post, Keeps id ((boardAfter b pre).holderSet id).card e.2 := by
  induction h generalizing pre with
  | nil => simp at heq
  | copy loaded hrest ih =>
    cases pre with
    | nil =>
      rw [nil_append] at heq
      exact heq ▸ (copy loaded hrest).keeps
    | cons x pre =>
      obtain ⟨rfl, htail⟩ := List.cons.inj heq
      exact ih htail
  | move loaded dropped hrest ih =>
    cases pre with
    | nil =>
      rw [nil_append] at heq
      exact heq ▸ (move loaded dropped hrest).keeps
    | cons x pre =>
      obtain ⟨rfl, htail⟩ := List.cons.inj heq
      cases pre with
      | nil => simp at htail
      | cons y pre =>
        obtain ⟨rfl, hrest⟩ := List.cons.inj htail
        exact ih hrest

end Migrates

section

variable {cost : CostModel} {id : String}

theorem removeAssignment_cases (c : Cycle) (server segmentId : String) :
    c.removeAssignment server segmentId = c ∨
      ∃ b, c.removeAssignment server segmentId = ⟨b, c.history ++ [(.drop server segmentId, b)]⟩ := by
  unfold Cycle.removeAssignment
  cases hfind : (c.board.on server).find? (·.segmentId = segmentId) with
  | none => exact .inl rfl
  | some a =>
    have hid := find?_some hfind
    obtain rfl := of_decide_eq_true hid
    exact .inr ⟨_, rfl⟩

/-- A copy that is loaded elsewhere before it is dropped is not missed. -/
theorem card_move {c : Cycle} {dest src : String} {a : SegmentAssignment} (hfresh : c.board.holds dest a.segmentId = false)
    (hne : dest ≠ src) :
    (c.board.holderSet id).card ≤ (((c.load dest a).removeAssignment src a.segmentId).board.holderSet id).card := by
  have hcopies : ∀ n, ((c.load dest a).removeAssignment src a.segmentId).board.copies n id =
      c.board.copies n id + (if n = dest ∧ id = a.segmentId then 1 else 0) - if n = src ∧ id = a.segmentId then 1 else 0 := fun n => by
    rw [copies_removeAssignment, Cycle.load, Board.copies_place]
  by_cases hid : id = a.segmentId
  · subst hid
    have hnotin : dest ∉ c.board.holderSet a.segmentId := by
      rw [Board.mem_holderSet, ← Board.holds_iff, hfresh]
      exact Bool.false_ne_true
    have hsub : insert dest ((c.board.holderSet a.segmentId).erase src) ⊆
        ((c.load dest a).removeAssignment src a.segmentId).board.holderSet a.segmentId := by
      intro n hn
      rw [Board.mem_holderSet, hcopies]
      rw [Finset.mem_insert, Finset.mem_erase, Board.mem_holderSet] at hn
      rcases hn with rfl | ⟨hsrc, hpos⟩
      · simp [hne]
      · simp only [hsrc, false_and, if_false]
        omega
    have hcard := Finset.card_le_card hsub
    rw [Finset.card_insert_of_notMem fun h => hnotin (Finset.mem_of_mem_erase h)] at hcard
    have := Finset.pred_card_le_card_erase (a := src) (s := c.board.holderSet a.segmentId)
    omega
  · exact card_le_of_mono fun n => by simp [hcopies, hid]

theorem rebalanceSegment_migrates (src : ServerInfo) (st : Cycle × ℕ) (a : SegmentAssignment) :
    ∃ hs, (rebalanceSegment cost src st a).1.history = st.1.history ++ hs ∧
      Migrates id st.1.board hs (rebalanceSegment cost src st a).1.board := by
  have hnone : ∃ hs, st.1.history = st.1.history ++ hs ∧ Migrates id st.1.board hs st.1.board := ⟨[], by simp, .nil _⟩
  unfold rebalanceSegment
  simp only
  split_ifs
  · exact hnone
  split
  · exact hnone
  rename_i dest destCost hcheapest
  obtain ⟨⟨cand, hcand, hdest⟩, hfresh, -⟩ := cheapest_some hcheapest
  have hne : dest ≠ src.name := by
    have := (mem_filter.1 hcand).2
    simp only [decide_eq_true_eq] at this
    exact hdest ▸ this.2
  split_ifs
  swap
  · exact hnone
  set placed : SegmentAssignment := { a with tier := ((st.1.board.registry.get dest).map (·.tier)).getD a.tier }
  have hloaded : (st.1.board.holderSet id).card ≤ ((st.1.load dest placed).board.holderSet id).card := card_le_of_mono fun n => by
    rw [Cycle.load, Board.copies_place]
    exact Nat.le_add_right _ _
  rcases removeAssignment_cases (st.1.load dest placed) src.name a.segmentId with heq | ⟨b2, heq⟩
  · rw [heq]
    exact ⟨_, rfl, .copy hloaded (.nil _)⟩
  · have hboard : b2 = ((st.1.load dest placed).removeAssignment src.name a.segmentId).board := by rw [heq]
    have hdropped : (st.1.board.holderSet id).card ≤ (b2.holderSet id).card := by
      rw [hboard]
      exact card_move hfresh hne
    rw [heq]
    exact ⟨_, append_assoc _ _ _, .move hloaded hdropped (.nil _)⟩

theorem rebalance_migrates (maxSegmentsToMove : ℕ) (b : Board) :
    Migrates id b (rebalance cost maxSegmentsToMove b).history (rebalance cost maxSegmentsToMove b).board := by
  have hsegments : ∀ (src : ServerInfo) (segs : List SegmentAssignment) (st : Cycle × ℕ),
      ∃ hs, (segs.foldl (rebalanceSegment cost src) st).1.history = st.1.history ++ hs ∧
        Migrates id st.1.board hs (segs.foldl (rebalanceSegment cost src) st).1.board := by
    intro src segs
    induction segs with
    | nil => exact fun st => ⟨[], by simp, .nil _⟩
    | cons a segs ih =>
      intro st
      obtain ⟨hs, hhist, hmig⟩ := @rebalanceSegment_migrates cost id src st a
      obtain ⟨hs', hhist', hmig'⟩ := ih (rebalanceSegment cost src st a)
      exact ⟨hs ++ hs', by rw [foldl_cons, hhist', hhist, append_assoc], hmig.append hmig'⟩
  have hservers : ∀ (servers : List ServerInfo) (st : Cycle × ℕ),
      ∃ hs, (servers.foldl (rebalanceServer cost) st).1.history = st.1.history ++ hs ∧
        Migrates id st.1.board hs (servers.foldl (rebalanceServer cost) st).1.board := by
    intro servers
    induction servers with
    | nil => exact fun st => ⟨[], by simp, .nil _⟩
    | cons src servers ih =>
      intro st
      have hone : ∃ hs, (rebalanceServer cost st src).1.history = st.1.history ++ hs ∧
          Migrates id st.1.board hs (rebalanceServer cost st src).1.board := by
        unfold rebalanceServer
        split_ifs
        · exact ⟨[], by simp, .nil _⟩
        · exact hsegments src _ st
      obtain ⟨hs, hhist, hmig⟩ := hone
      obtain ⟨hs', hhist', hmig'⟩ := ih (rebalanceServer cost st src)
      exact ⟨hs ++ hs', by rw [foldl_cons, hhist', hhist, append_assoc], hmig.append hmig'⟩
  unfold rebalance
  split_ifs
  · exact .nil b
  · obtain ⟨hs, hhist, hmig⟩ := hservers (b.registry.list.insertionSort fun x y => ¬ (cost.fillRatio x).lt (cost.fillRatio y))
      (⟨b, []⟩, maxSegmentsToMove)
    rw [hhist]
    exact hmig

end

/-- Balancing keeps what it has of a segment, up to what its placement asks for,
at every action; a rebalance keeps as many copies as there were before the move,
at every action from it on. -/
theorem availability_kept (chrono : Chrono) (cost : CostModel) (fromValue : Json → Except String LoadRule) (now : ℤ)
    (store : MetadataStore) (b : Board) :
    (store.Keyed → ∀ segments rulesByDs history, store.loadUsedSegments = .ok segments →
      store.loadRulesFor fromValue segments = .ok rulesByDs →
      (runBalanceRegistered chrono cost fromValue now store b).2 = .ok history →
      ∀ seg ∈ segments, ∀ placement, placementOf chrono now rulesByDs seg = .ok placement →
      ∀ e ∈ history, guaranteed (b.holders seg.id).length placement ≤ (e.2.holders seg.id).length) ∧
    ∀ maxSegmentsToMove id pre post dest segmentId b',
      (rebalance cost maxSegmentsToMove b).history = pre ++ (.load dest segmentId, b') :: post →
      ∀ e ∈ (.load dest segmentId, b') :: post, ((boardAfter b pre).holders id).length ≤ (e.2.holders id).length := by
  constructor
  · intro hkeyed segments rulesByDs history hsegments hrules hrun seg hseg placement hplacement
    simp only [← Board.card_holderSet]
    have hids : (segments.map (·.id)).Nodup := hkeyed segments hsegments
    rcases @runBalanceRegistered_grows chrono cost fromValue now store b with ⟨e, heq⟩ | heq |
      ⟨segments', rulesByDs', hsegments', hrules', c, hc, -, heq⟩
    · rw [heq] at hrun
      cases hrun
    · rw [heq] at hrun
      cases hrun
      exact nofun
    · rw [hsegments] at hsegments'
      cases hsegments'
      rw [hrules] at hrules'
      cases hrules'
      have hhistory : history = c.history := by
        rw [heq] at hrun
        cases hunit : (placeSegments chrono cost now rulesByDs segments (dropAllUnused segments ⟨b, []⟩)).2 <;> rw [hunit] at hrun
        · cases hrun
        · exact (Except.ok.inj hrun).symm
      rw [hhistory, hc]
      have hstart : Keeps seg.id (guaranteed (b.holderSet seg.id).card placement) b := guaranteed_le _ _
      obtain ⟨hsame, hh⟩ := (dropAllUnused_grows segments ⟨b, []⟩).keeps_of_ne (fun _ e _ hP heq => by
        obtain ⟨name, id, hid, rfl⟩ := hP
        exact hid (mem_map.2 ⟨seg, hseg, heq⟩)) hstart nofun
      exact placeSegments_keeps hplacement segments hids hseg (congrArg _ hsame.symm) hh
  · intro maxSegmentsToMove id pre post dest segmentId b' heq
    simp only [← Board.card_holderSet]
    exact (rebalance_migrates maxSegmentsToMove b).keeps_of_load heq

/-! ## A segment wanted in two copies, and two on one server -/

/-- A server costs what it has. -/
def crowdCost : CostModel := ⟨fun _ others _ => .ofInt others.length, fun _ _ => .ofInt 0, .ofInt 0⟩

def hist2 : ServerInfo := ⟨"hist-2", "127.0.0.1", 8084, "_default_tier", 1000, 0⟩

def bothOnHist1 : Board :=
  let placed := (registerServer (hist1 0) .empty).place "hist-1" ⟨"seg_0", "wiki", ⟨0, 0⟩, "_default_tier", 100⟩
  registerServer hist2 (placed.place "hist-1" ⟨"seg_1", "wiki", ⟨0, 0⟩, "_default_tier", 100⟩)

def twoCopies : Json → Except String LoadRule := fun _ => .ok (.loadForever ((∅ : HashMap String ℕ).insert "_default_tier" 2))

theorem availability_kept_two :
    (∀ e ∈ (runBalanceRegistered noChrono crowdCost twoCopies 0 (oneSegment 100 (by decide)) bothOnHist1).2.toOption.getD [],
      1 ≤ (e.2.holders "seg_0").length) ∧
    ∀ e ∈ (rebalance crowdCost 1 bothOnHist1).history, 1 ≤ (e.2.holders "seg_0").length := by
  obtain ⟨hrun, hmove⟩ := availability_kept noChrono crowdCost twoCopies 0 (oneSegment 100 (by decide)) bothOnHist1
  constructor
  · cases hhistory : (runBalanceRegistered noChrono crowdCost twoCopies 0 (oneSegment 100 (by decide)) bothOnHist1).2 with
    | error e => exact nofun
    | ok history =>
      exact hrun (fun segments hsegments => by cases hsegments; decide) _ _ history rfl rfl hhistory _ mem_cons_self
        (.load ((∅ : HashMap String ℕ).insert "_default_tier" 2)) rfl
  · have hfirst : (rebalance crowdCost 1 bothOnHist1).history.head?.map (·.1) = some (.load "hist-2" "seg_0") := by decide +kernel
    cases hhistory : (rebalance crowdCost 1 bothOnHist1).history with
    | nil => exact nofun
    | cons e post =>
      rw [hhistory] at hfirst
      obtain ⟨action, b'⟩ := e
      obtain rfl : action = .load "hist-2" "seg_0" := Option.some.inj hfirst
      exact hmove 1 "seg_0" [] post _ _ b' hhistory

end FerroDruid.Coordinator
