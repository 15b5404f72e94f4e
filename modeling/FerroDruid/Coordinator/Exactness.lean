import FerroDruid.Coordinator.Atomicity
import FerroDruid.Coordinator.Rebalance
/-!
# What a cycle ends with

A cycle that gives every segment its counts gives it no more than these. A
broadcast goes wherever there is room when it is its turn; what gets free after
that is for the next cycle.
-/

namespace FerroDruid.Coordinator

open Lib List

/-- Every tier has as many copies as the placement asks for, at least. -/
def Supplied (b : Board) (seg : SegmentMetadataRow) : DesiredPlacement → Prop
  | .load tierReplicants => ∀ tier replicas, tierReplicants.lookup tier = some replicas → replicas ≤ b.countTierReplicas seg.id tier
  | _ => True

/-- A segment is where its placement wants it and nowhere else; a broadcast is
wanted everywhere. -/
def Exact (b : Board) (seg : SegmentMetadataRow) : DesiredPlacement → Prop
  | .drop => b.holders seg.id = []
  | .broadcast => True
  | .load tierReplicants =>
    (∀ tier replicas, tierReplicants.lookup tier = some replicas → b.countTierReplicas seg.id tier = replicas) ∧
      ∀ name ∈ b.holders seg.id, ∃ tier replicas, tierReplicants.lookup tier = some replicas ∧ 0 < replicas ∧ b.tierOf name = some tier

/-- A registered server with room. -/
def Board.hasRoom (b : Board) (name : String) (size : UInt64) : Prop :=
  ∃ server, b.registry.get name = some server ∧ server.canHold size = true

variable {b : Board}

theorem holders_eq_nil {id : String} : b.holders id = [] ↔ ∀ n, b.copies n id = 0 := by
  rw [eq_nil_iff_forall_not_mem]
  simp only [Board.mem_holders, Board.holds_iff, Nat.pos_iff_ne_zero, not_not]

theorem mem_desiredTiers {tierReplicants : HashMap String ℕ} {e : String × ℕ} :
    e ∈ desiredTiers tierReplicants ↔ tierReplicants.lookup e.1 = some e.2 ∧ 0 < e.2 := by
  simp only [desiredTiers, mem_map, mem_filter, decide_eq_true_eq, ← Option.mem_def, AList.mem_lookup_iff]
  constructor
  · rintro ⟨⟨tier, replicas⟩, ⟨hmem, hpos⟩, rfl⟩
    exact ⟨hmem, hpos⟩
  · rintro ⟨hmem, hpos⟩
    exact ⟨⟨e.1, e.2⟩, ⟨hmem, hpos⟩, rfl⟩

theorem satisfied_of_supplied {seg : SegmentMetadataRow} {tierReplicants : HashMap String ℕ}
    (h : Supplied b seg (.load tierReplicants)) : Satisfied seg.id (desiredTiers tierReplicants) b := by
  intro e he
  rw [← Board.countTierReplicas_eq]
  exact h _ _ (mem_desiredTiers.1 he).1

/-- A server that is not known has no copies. -/
theorem copies_of_unknown (hb : Placed b) {n : String} (h : b.registry.get n = none) (id : String) : b.copies n id = 0 := by
  have hon : b.on n = [] := by
    by_contra hne
    have hknown := hb.registered n hne
    rw [h] at hknown
    cases hknown
  rw [Board.copies, hon]
  rfl

theorem copies_of_noServers (hb : Placed b) (hservers : b.registry.list = []) (n id : String) : b.copies n id = 0 := by
  refine copies_of_unknown hb (Option.eq_none_iff_forall_ne_some.2 fun server hserver => ?_) id
  have hmem : server ∈ b.registry.list := ServerRegistry.mem_list.2 (b.registry.named n server hserver ▸ hserver)
  rw [hservers] at hmem
  cases hmem

section

variable {chrono : Chrono} {cost : CostModel} {seg : SegmentMetadataRow}

/-! ## Loads -/

/-- A tier that has its count or more has it exactly when it was trimmed, and
the other tiers stay. -/
theorem ensureReplicas_trims {entry : String × ℕ} {interval : Interval} {size : UInt64} {c : Cycle} (hc : Placed c.board)
    (hle : entry.2 ≤ (c.board.tierSet seg.id entry.1).card) :
    let c' := ensureReplicas cost seg interval size (tierServers c entry.1) entry.2 true c
    (c'.board.tierSet seg.id entry.1).card = entry.2 ∧
      ∀ tier, tier ≠ entry.1 → c'.board.tierSet seg.id tier = c.board.tierSet seg.id tier := by
  intro c'
  obtain ⟨hheld, hset, hlen⟩ := heldBy_tierServers c entry.1 seg.id
  rcases @ensureReplicas_cases cost seg interval size _ (nodup_tierServers c entry.1) entry.2 true c with
    ⟨-, hallow, -⟩ | ⟨hlt, -, names, hnames, hmem, hcount, heq⟩ | ⟨hheld', heq⟩
  · cases hallow
  · have hcopies := fun n => copies_removeAssignments hnames c seg.id n seg.id
    have htiers := (removeAssignments_grows seg.id names c).tierOf
    have hsub : names.toFinset ⊆ c.board.tierSet seg.id entry.1 := fun n hn => by
      rw [← hset, mem_toFinset]
      exact hmem n (mem_toFinset.1 hn)
    rw [show c' = _ from heq]
    constructor
    · have hleft : (names.foldl (fun c name => c.removeAssignment name seg.id) c).board.tierSet seg.id entry.1 =
          c.board.tierSet seg.id entry.1 \ names.toFinset := by
        ext n
        rw [Finset.mem_sdiff, mem_toFinset, Board.mem_tierSet, Board.mem_tierSet, hcopies, htiers]
        have := copies_le_one hc n seg.id
        by_cases hn : n ∈ names
        · simp only [hn, and_self, if_true, not_true_eq_false, and_false, iff_false]
          omega
        · simp [hn]
      rw [hleft, Finset.card_sdiff_of_subset hsub, toFinset_card_of_nodup hnames]
      omega
    · intro tier htier
      ext n
      rw [Board.mem_tierSet, Board.mem_tierSet, hcopies, htiers]
      by_cases hn : n ∈ names
      · have hin := (Board.mem_tierSet.1 (hsub (mem_toFinset.2 hn))).2
        have hne : c.board.tierOf n ≠ some tier := fun heq => htier (Option.some.inj (heq.symm.trans hin))
        simp [hne]
      · simp [hn]
  · have hzero : entry.2 - (heldBy c.board (tierServers c entry.1) seg.id).length = 0 := by omega
    rw [hzero] at heq
    rw [show c' = c from heq]
    exact ⟨by omega, fun _ _ => rfl⟩

theorem ensureTiers_placed (allow : Bool) (desired : List (String × ℕ)) {c : Cycle} (hc : Placed c.board) :
    Placed (ensureTiers chrono cost seg allow desired c).board :=
  (ensureTiers_grows seg allow desired c).inv (fun _ _ _ hmove _ => placed_of_moves hmove) hc

theorem ensureTiers_exact {desired : List (String × ℕ)} (hnodup : (desired.map (·.1)).Nodup) {c : Cycle} (hc : Placed c.board)
    (h : Satisfied seg.id desired c.board) :
    (∀ e ∈ desired, ((ensureTiers chrono cost seg true desired c).board.tierSet seg.id e.1).card = e.2) ∧
      ∀ tier ∉ desired.map (·.1), (ensureTiers chrono cost seg true desired c).board.tierSet seg.id tier = c.board.tierSet seg.id tier := by
  induction desired generalizing c with
  | nil => exact ⟨nofun, fun _ _ => rfl⟩
  | cons entry es ih =>
    obtain ⟨hnotin, hnodup⟩ := nodup_cons.1 hnodup
    rw [Satisfied, forall_mem_cons] at h
    obtain ⟨hentry, hothers⟩ := @ensureReplicas_trims cost seg entry (segmentInterval chrono seg) (segmentSizeBytes seg) c hc h.1
    have hplaced := @ensureTiers_placed chrono cost seg true [entry] c hc
    rw [ensureTiers_cons]
    obtain ⟨hes, hrest⟩ := ih hnodup hplaced fun e he => by
      exact (hothers e.1 fun heq => hnotin (mem_map.2 ⟨e, he, heq⟩)).symm ▸ h.2 e he
    refine ⟨forall_mem_cons.2 ⟨?_, hes⟩, fun tier htier => ?_⟩
    · exact (congrArg Finset.card (hrest entry.1 hnotin)).trans hentry
    · rw [map_cons, mem_cons, not_or] at htier
      exact (hrest tier htier.2).trans (hothers tier htier.1)

variable {c : Cycle}

theorem copies_dropSegmentEverywhere (hc : Placed c.board) (id : String) :
    (c.dropSegmentEverywhere id).board.holders id = [] := by
  rw [holders_eq_nil]
  intro n
  rw [Cycle.dropSegmentEverywhere, copies_removeAssignments (c.board.nodup_holders id)]
  have := copies_le_one hc n id
  by_cases hn : n ∈ c.board.holders id
  · rw [if_pos ⟨hn, rfl⟩]
    omega
  · rw [if_neg fun h => hn h.1, Nat.sub_zero]
    rw [Board.mem_holders, Board.holds_iff] at hn
    omega

/-- What is supplied when it was placed is where it should be. -/
theorem placeSegment_exact {placement : DesiredPlacement} {c : Cycle} (hc : Placed c.board)
    (h : Supplied (placeSegment chrono cost seg c placement).board seg placement) :
    Exact (placeSegment chrono cost seg c placement).board seg placement := by
  cases placement with
  | drop => exact copies_dropSegmentEverywhere hc seg.id
  | broadcast => trivial
  | load tierReplicants =>
    have hsat := satisfied_of_supplied h
    have hnodup := nodup_desiredTiers tierReplicants
    -- a tier that is wanted in no copy has none, as no holder is in it
    suffices hexact : (∀ e ∈ desiredTiers tierReplicants,
        ((placeSegment chrono cost seg c (.load tierReplicants)).board.tierSet seg.id e.1).card = e.2) ∧
        ∀ name ∈ (placeSegment chrono cost seg c (.load tierReplicants)).board.holders seg.id,
          ∃ e ∈ desiredTiers tierReplicants, (placeSegment chrono cost seg c (.load tierReplicants)).board.tierOf name = some e.1 by
      have hin : ∀ name ∈ (placeSegment chrono cost seg c (.load tierReplicants)).board.holders seg.id, ∃ tier replicas,
          tierReplicants.lookup tier = some replicas ∧ 0 < replicas ∧
            (placeSegment chrono cost seg c (.load tierReplicants)).board.tierOf name = some tier := by
        intro name hname
        obtain ⟨e, he, htier⟩ := hexact.2 name hname
        exact ⟨e.1, e.2, (mem_desiredTiers.1 he).1, (mem_desiredTiers.1 he).2, htier⟩
      refine ⟨fun tier replicas hlookup => ?_, hin⟩
      rcases Nat.eq_zero_or_pos replicas with rfl | hpos
      · rw [Board.countTierReplicas, countP_eq_zero]
        intro name hname
        obtain ⟨tier', replicas', hlookup', hpos', htier'⟩ := hin name hname
        rw [decide_eq_true_eq]
        intro htier
        obtain rfl : tier' = tier := Option.some.inj (htier'.symm.trans htier)
        rw [hlookup] at hlookup'
        cases hlookup'
        exact lt_irrefl _ hpos'
      · rw [Board.countTierReplicas_eq]
        exact hexact.1 (tier, replicas) (mem_desiredTiers.2 ⟨hlookup, hpos⟩)
    unfold placeSegment at hsat ⊢
    simp only at hsat ⊢
    split_ifs at hsat ⊢ with hempty hall
    · rw [hempty, copies_dropSegmentEverywhere hc]
      simp
    · have hloaded := @ensureTiers_placed chrono cost seg false (desiredTiers tierReplicants) c hc
      have htrimmed := @ensureTiers_placed chrono cost seg true (desiredTiers tierReplicants) _ hloaded
      obtain ⟨hexact, -⟩ := @ensureTiers_exact chrono cost seg _ hnodup _ hloaded (allSatisfied_iff.1 hall)
      generalize ensureTiers chrono cost seg true (desiredTiers tierReplicants)
        (ensureTiers chrono cost seg false (desiredTiers tierReplicants) c) = trimmed at hexact htrimmed ⊢
      have htiers : ∀ n, (trimmed.pruneOtherTiers seg.id ((desiredTiers tierReplicants).map (·.1))).board.tierOf n =
          trimmed.board.tierOf n := (removeAssignments_grows seg.id _ trimmed).tierOf
      have hcopies := copies_pruneOtherTiers trimmed seg.id ((desiredTiers tierReplicants).map (·.1))
      constructor
      · intro e he
        rw [← hexact e he]
        congr 1
        ext n
        rw [Board.mem_tierSet, Board.mem_tierSet, htiers, hcopies]
        by_cases hn : trimmed.board.tierOf n = some e.1
        · rw [if_neg fun hcon => hcon.2 ⟨e.1, mem_map.2 ⟨e, he, rfl⟩, hn⟩, Nat.sub_zero]
        · simp [hn]
      · intro name hname
        rw [Board.mem_holders, Board.holds_iff, hcopies] at hname
        have hone := copies_le_one htrimmed name seg.id
        by_contra hoff
        rw [if_pos] at hname
        · omega
        · refine ⟨by omega, ?_⟩
          rintro ⟨tier, hmem, htier⟩
          obtain ⟨e, he, rfl⟩ := mem_map.1 hmem
          exact hoff ⟨e, he, (htiers name).trans htier⟩
    · exact absurd (allSatisfied_iff.2 hsat) hall

/-! ## Broadcasts -/

variable {b : Board} {name : String}

theorem mem_names : (∃ server ∈ b.registry.list, server.name = name) ↔ (b.tierOf name).isSome = true := by
  simp only [ServerRegistry.mem_list, Board.tierOf, Option.isSome_map, Option.isSome_iff_exists]
  constructor
  · rintro ⟨server, hserver, rfl⟩
    exact ⟨server, hserver⟩
  · rintro ⟨server, hserver⟩
    have hname := b.registry.named name server hserver
    exact ⟨server, hname ▸ hserver, hname⟩

/-- With as many copies to add as servers lack one, all that have room get one. -/
theorem addReplicas_fills {interval : Interval} {size : UInt64} {candidates : List ServerInfo} {missing : ℕ}
    (hmissing : ((candidates.map (·.name)).filter fun n => !c.board.holds n seg.id).length ≤ missing)
    (hname : ∃ cand ∈ candidates, cand.name = name) :
    (addReplicas cost seg interval size candidates missing c).board.holds name seg.id = true ↔
      c.board.holds name seg.id = true ∨ c.board.hasRoom name size := by
  induction missing generalizing c with
  | zero =>
    have hnil := length_eq_zero_iff.1 (Nat.le_zero.1 hmissing)
    have hholds : c.board.holds name seg.id = true := by
      by_contra hnot
      exact (filter_eq_nil_iff.1 hnil name (mem_map.2 hname)) (by simpa using hnot)
    exact iff_of_true hholds (.inl hholds)
  | succ missing ih =>
    unfold addReplicas
    split
    · rename_i hpick
      rw [pickBestServer, Option.map_eq_none_iff, cheapest_eq_none] at hpick
      obtain ⟨cand, hcand, rfl⟩ := hname
      refine ⟨.inl, ?_⟩
      rintro (h | ⟨server, hserver, hroom⟩)
      · exact h
      refine (hpick cand hcand).resolve_right fun hfull => ?_
      rw [hfull server hserver] at hroom
      cases hroom
    · rename_i n hpick
      obtain ⟨⟨n, x⟩, hcheapest, rfl⟩ := Option.map_eq_some_iff.1 hpick
      obtain ⟨hcand, hfresh, live, hlive, hfits⟩ := cheapest_some hcheapest
      set a : SegmentAssignment :=
        ⟨seg.id, seg.dataSource, interval, ((c.board.registry.get n).map (·.tier)).getD "_default_tier", size⟩ with ha
      have hholds : ∀ m, (c.load n a).board.holds m seg.id = true ↔ c.board.holds m seg.id = true ∨ m = n := fun m => by
        rw [Board.holds_iff, Board.holds_iff, Cycle.load, Board.copies_place]
        by_cases hm : m = n <;> simp [hm, ha]
      -- this server is not one of those that lack a copy any more
      have hcount : ((candidates.map (·.name)).filter fun m => !(c.load n a).board.holds m seg.id).length ≤ missing := by
        have hfilter : ((candidates.map (·.name)).filter fun m => !(c.load n a).board.holds m seg.id) =
            ((candidates.map (·.name)).filter fun m => !c.board.holds m seg.id).filter fun m => m ≠ n := by
          rw [filter_filter]
          refine filter_congr fun m _ => ?_
          rw [Bool.eq_iff_iff]
          simp only [Bool.not_eq_true', Bool.and_eq_true, decide_eq_true_eq, ← Bool.not_eq_true, hholds, not_or]
          exact and_comm
        have hlt : (((candidates.map (·.name)).filter fun m => !c.board.holds m seg.id).filter fun m => m ≠ n).length <
            ((candidates.map (·.name)).filter fun m => !c.board.holds m seg.id).length := by
          refine length_filter_lt_length_iff_exists.2 ⟨n, ?_, by simp⟩
          exact mem_filter.2 ⟨mem_map.2 hcand, by simp [hfresh]⟩
        rw [hfilter]
        omega
      rw [ih hcount, hholds]
      by_cases hn : name = n
      · subst hn
        exact iff_of_true (.inl (.inr rfl)) (.inr ⟨live, hlive, hfits⟩)
      · have hroom : (c.load n a).board.hasRoom name size ↔ c.board.hasRoom name size := by
          rw [Board.hasRoom, Board.hasRoom, Cycle.load, get_place hlive, if_neg hn]
        rw [hroom, or_iff_left hn]

/-- A broadcast reaches the servers that have room. -/
theorem placeSegment_broadcast (hname : (c.board.tierOf name).isSome = true) :
    (placeSegment chrono cost seg c .broadcast).board.holds name seg.id = true ↔
      c.board.holds name seg.id = true ∨ c.board.hasRoom name (segmentSizeBytes seg) := by
  have hlen : (c.board.registry.list.map (·.name)).length = c.board.registry.list.length := length_map _
  have hsplit := length_eq_length_filter_add (l := c.board.registry.list.map (·.name)) (c.board.holds · seg.id)
  unfold placeSegment
  rcases @ensureReplicas_cases cost seg (segmentInterval chrono seg) (segmentSizeBytes seg) _ c.board.registry.nodup_names
    c.board.registry.list.length true c with ⟨-, hallow, -⟩ | ⟨hsurplus, -⟩ | ⟨-, heq⟩
  · cases hallow
  · rw [heldBy] at hsurplus
    omega
  · rw [heq]
    refine addReplicas_fills ?_ (mem_names.2 hname)
    rw [heldBy]
    omega

/-! ## The whole cycle -/

variable {fromValue : Json → Except String LoadRule} {now : ℤ} {rulesByDs : HashMap String (List LoadRule)}

theorem placeSegments_split {pre post : List SegmentMetadataRow}
    (h : (placeSegments chrono cost now rulesByDs (pre ++ seg :: post) c).2 = .ok ()) :
    ∃ p, placementOf chrono now rulesByDs seg = .ok p ∧ placeSegments chrono cost now rulesByDs (pre ++ seg :: post) c =
      placeSegments chrono cost now rulesByDs post
        (placeSegment chrono cost seg (placeSegments chrono cost now rulesByDs pre c).1 p) := by
  induction pre generalizing c with
  | nil =>
    rw [nil_append, placeSegments] at h ⊢
    cases hp : placementOf chrono now rulesByDs seg with
    | error e =>
      rw [hp] at h
      cases h
    | ok p => exact ⟨p, rfl, rfl⟩
  | cons s pre ih =>
    rw [cons_append, placeSegments] at h ⊢
    rw [placeSegments]
    cases hp : placementOf chrono now rulesByDs s with
    | error e =>
      rw [hp] at h
      cases h
    | ok p =>
      rw [hp] at h
      exact ih h

theorem copies_placeSegments_of_ne {segs : List SegmentMetadataRow} {id : String} (hid : id ∉ segs.map (·.id)) (c : Cycle) (n : String) :
    (placeSegments chrono cost now rulesByDs segs c).1.board.copies n id = c.board.copies n id := by
  refine (placeSegments_grows now rulesByDs segs c).inv (I := fun b => b.copies n id = c.board.copies n id)
    (fun b e b' hmove hP hI => ?_) rfl
  obtain ⟨other, hother, hmoves⟩ := hP
  rw [copies_of_ne hmove fun heq => hid ?_, hI]
  exact mem_map.2 ⟨other, hother, (heq.trans (movesOf_segmentId hmoves)).symm⟩

theorem runBalanceRegistered_eq {store : MetadataStore} {segments : List SegmentMetadataRow} (hservers : b.registry.list ≠ [])
    (hsegments : store.loadUsedSegments = .ok segments) (hrules : store.loadRulesFor fromValue segments = .ok rulesByDs) :
    runBalanceRegistered chrono cost fromValue now store b =
      let r := placeSegments chrono cost now rulesByDs segments (dropAllUnused segments ⟨b, []⟩)
      (r.1.board, r.2.map fun _ => r.1.history) := by
  unfold runBalanceRegistered
  rw [if_neg hservers, hsegments]
  simp only [hrules]
  generalize placeSegments chrono cost now rulesByDs segments (dropAllUnused segments ⟨b, []⟩) = r
  rcases r with ⟨c, e | ⟨⟩⟩ <;> rfl

variable {b' : Board}

theorem countTierReplicas_congr {id : String} (hcopies : ∀ n, b'.copies n id = b.copies n id)
    (htiers : ∀ n, b'.tierOf n = b.tierOf n) (tier : String) : b'.countTierReplicas id tier = b.countTierReplicas id tier := by
  rw [Board.countTierReplicas_eq, Board.countTierReplicas_eq]
  congr 1
  ext n
  rw [Board.mem_tierSet, Board.mem_tierSet, hcopies, htiers]

variable {placement : DesiredPlacement}

/-- Only a segment's copies and the tiers count. -/
theorem exact_congr (hcopies : ∀ n, b'.copies n seg.id = b.copies n seg.id) (htiers : ∀ n, b'.tierOf n = b.tierOf n)
    (h : Exact b seg placement) : Exact b' seg placement := by
  cases placement with
  | drop =>
    have h' := holders_eq_nil.1 h
    exact holders_eq_nil.2 fun n => (hcopies n).trans (h' n)
  | broadcast => trivial
  | load tierReplicants =>
    refine ⟨fun tier replicas hlookup => (countTierReplicas_congr hcopies htiers tier).trans (h.1 tier replicas hlookup), fun name hname => ?_⟩
    rw [Board.mem_holders, Board.holds_iff, hcopies, ← Board.holds_iff, ← Board.mem_holders] at hname
    rw [htiers]
    exact h.2 name hname

theorem supplied_congr (hcopies : ∀ n, b'.copies n seg.id = b.copies n seg.id) (htiers : ∀ n, b'.tierOf n = b.tierOf n)
    (h : Supplied b seg placement) : Supplied b' seg placement := by
  cases placement with
  | drop => trivial
  | broadcast => trivial
  | load tierReplicants =>
    intro tier replicas hlookup
    rw [countTierReplicas_congr hcopies htiers]
    exact h tier replicas hlookup

/-- What is exact needs nothing; a broadcast needs room that it does not have. -/
theorem nothingToDo_of_exact (h : Exact b seg placement)
    (hfull : placement = .broadcast → Full b seg b.registry.list) : NothingToDo b seg placement := by
  cases placement with
  | drop => exact h
  | broadcast => exact hfull rfl
  | load tierReplicants =>
    have hin : ∀ name ∈ b.holders seg.id, ∃ e ∈ desiredTiers tierReplicants, b.tierOf name = some e.1 := fun name hname => by
      obtain ⟨tier, replicas, hlookup, hpos, htier⟩ := h.2 name hname
      exact ⟨(tier, replicas), mem_desiredTiers.2 ⟨hlookup, hpos⟩, htier⟩
    have hcount : ∀ e ∈ desiredTiers tierReplicants, b.countTierReplicas seg.id e.1 = e.2 :=
      fun e he => h.1 _ _ (mem_desiredTiers.1 he).1
    unfold NothingToDo
    simp only
    split_ifs with hempty
    · rw [eq_nil_iff_forall_not_mem]
      intro name hname
      obtain ⟨e, he, -⟩ := hin name hname
      rw [hempty] at he
      cases he
    · exact ⟨fun e he hlt => absurd (hcount e he) hlt.ne, fun _ => ⟨hcount, hin⟩⟩

/-- A cycle over a board without servers ends as it should: there is nothing. -/
theorem exact_of_noServers {b : Board} (hb : Placed b) (hservers : b.registry.list = []) {placement : DesiredPlacement}
    (h : Supplied b seg placement) : Exact b seg placement := by
  have hnone : b.holders seg.id = [] := holders_eq_nil.2 fun n => copies_of_noServers hb hservers n seg.id
  cases placement with
  | drop => exact hnone
  | broadcast => trivial
  | load tierReplicants =>
    refine ⟨fun tier replicas hlookup => ?_, fun name hname => ?_⟩
    · have hle := h tier replicas hlookup
      rw [Board.countTierReplicas, hnone] at hle ⊢
      exact (Nat.le_zero.1 hle).symm
    · rw [hnone] at hname
      cases hname

/-- The used segments are where they should be when their turn is over, and the
others move on without them. -/
theorem placeSegments_exact {segs : List SegmentMetadataRow} (hids : (segs.map (·.id)).Nodup) (hc : Placed c.board)
    (hok : (placeSegments chrono cost now rulesByDs segs c).2 = .ok ()) {pre post : List SegmentMetadataRow}
    (hsplit : segs = pre ++ seg :: post) (hplacement : placementOf chrono now rulesByDs seg = .ok placement) :
    let turn := (placeSegments chrono cost now rulesByDs pre c).1
    let final := (placeSegments chrono cost now rulesByDs segs c).1.board
    Placed turn.board ∧ (∀ n, final.tierOf n = turn.board.tierOf n) ∧ (∀ n, final.tierOf n = c.board.tierOf n) ∧
      ∀ n, final.copies n seg.id = (placeSegment chrono cost seg turn placement).board.copies n seg.id := by
  subst hsplit
  intro turn final
  obtain ⟨p, hp, hfinal⟩ := placeSegments_split hok
  rw [hplacement] at hp
  cases hp
  have hpre := @placeSegments_grows chrono cost now rulesByDs pre c
  have hone := @placeSegment_grows chrono cost seg turn placement
  have hpost := @placeSegments_grows chrono cost now rulesByDs post (placeSegment chrono cost seg turn placement)
  have hboard : final = (placeSegments chrono cost now rulesByDs post (placeSegment chrono cost seg turn placement)).1.board :=
    congrArg (fun r => r.1.board) hfinal
  have htiers : ∀ n, final.tierOf n = turn.board.tierOf n := fun n => by
    rw [hboard, hpost.tierOf, hone.tierOf]
  refine ⟨hpre.inv (fun _ _ _ hmove _ => placed_of_moves hmove) hc, htiers, fun n => (htiers n).trans (hpre.tierOf n), fun n => ?_⟩
  rw [hboard]
  refine copies_placeSegments_of_ne (fun hmem => ?_) _ n
  rw [map_append, map_cons] at hids
  exact (nodup_cons.1 (hids.sublist (sublist_append_right _ _))).1 hmem

/-- On a board where everything is exact a cycle does nothing, unless there is
room for a broadcast. -/
theorem runBalanceRegistered_again {store : MetadataStore} (hkeyed : store.Keyed) {segments : List SegmentMetadataRow}
    (hsegments : store.loadUsedSegments = .ok segments) (hrules : store.loadRulesFor fromValue segments = .ok rulesByDs)
    (hplacements : ∀ seg ∈ segments, ∃ p, placementOf chrono now rulesByDs seg = .ok p)
    (hexact : ∀ seg ∈ segments, ∀ p, placementOf chrono now rulesByDs seg = .ok p → Exact b seg p)
    (hunused : ∀ id, id ∉ segments.map SegmentMetadataRow.id → b.holders id = []) :
    (runBalanceRegistered chrono cost fromValue now store b).2 = .ok [] ↔
      ∀ seg ∈ segments, placementOf chrono now rulesByDs seg = .ok .broadcast → Full b seg b.registry.list := by
  by_cases hservers : b.registry.list = []
  · rw [runBalanceRegistered, if_pos hservers, hservers]
    exact iff_of_true rfl fun _ _ _ => nofun
  have hkept : dropAllUnused segments ⟨b, []⟩ = ⟨b, []⟩ := by
    refine dropAllUnused_settled fun server _ a ha => ?_
    by_contra hid
    have hzero := holders_eq_nil.1 (hunused _ hid) server.name
    exact countP_eq_zero.1 hzero a ha (decide_eq_true rfl)
  rw [runBalanceRegistered_eq hservers hsegments hrules, hkept]
  constructor
  · intro h seg hseg hp
    suffices hall : ∀ s ∈ segments, ∀ p, placementOf chrono now rulesByDs s = .ok p → NothingToDo b s p from hall seg hseg _ hp
    by_contra hsome
    have hids : ((segments ++ []).map SegmentMetadataRow.id).Nodup := by
      rw [append_nil]
      exact hkeyed segments hsegments
    obtain ⟨n, i, hchanged⟩ := @placeSegments_unsettled chrono cost now rulesByDs segments [] ⟨b, []⟩ hids hplacements hsome
    rw [append_nil] at hchanged
    -- a history without actions leaves the board
    obtain ⟨hs, hhist, htrace⟩ := @placeSegments_grows chrono cost now rulesByDs segments ⟨b, []⟩
    rw [nil_append] at hhist
    rw [← hhist] at htrace
    refine hchanged ?_
    generalize placeSegments chrono cost now rulesByDs segments ⟨b, []⟩ = r at h htrace
    obtain ⟨⟨board, history⟩, e | ⟨⟩⟩ := r
    · cases h
    · cases Except.ok.inj h
      cases htrace
      rfl
  · intro hfull
    have hsettled := @placeSegments_settled chrono cost now rulesByDs segments ⟨b, []⟩ hplacements
      (fun s hs p hp => nothingToDo_of_exact (hexact s hs p hp) fun heq => hfull s hs (heq ▸ hp)) []
    rw [append_nil] at hsettled
    rw [hsettled]
    rfl

end

/-- After any run, a cycle that ends well and gives every segment its counts
gives it exactly these, and what is dropped or not used is nowhere. A broadcast
is where it was or had room when it was its turn. Another cycle does nothing,
unless a server has room by now for a broadcast that it does not have. -/
theorem cycle_exact (chrono : Chrono) (cost : CostModel) (fromValue : Json → Except String LoadRule) (maxSegmentsToMove : ℕ)
    (calls : List Call) (now : ℤ) {store : MetadataStore} (hkeyed : store.Keyed) {segments : List SegmentMetadataRow}
    (hsegments : store.loadUsedSegments = .ok segments) {rulesByDs : HashMap String (List LoadRule)}
    (hrules : store.loadRulesFor fromValue segments = .ok rulesByDs) {b b' : Board}
    (hb : b = calls.foldl (call chrono cost fromValue maxSegmentsToMove) .empty) {history : List (SegmentLoadAction × Board)}
    (hrun : runBalanceRegistered chrono cost fromValue now store b = (b', .ok history))
    (hsupplied : ∀ seg ∈ segments, ∀ placement, placementOf chrono now rulesByDs seg = .ok placement → Supplied b' seg placement) :
    (∀ seg ∈ segments, ∀ placement, placementOf chrono now rulesByDs seg = .ok placement → Exact b' seg placement) ∧
      (∀ id, id ∉ segments.map (·.id) → b'.holders id = []) ∧
      (∀ pre seg post, segments = pre ++ seg :: post → placementOf chrono now rulesByDs seg = .ok .broadcast →
        let turn := (placeSegments chrono cost now rulesByDs pre (dropAllUnused segments ⟨b, []⟩)).1.board
        ∀ server ∈ b'.registry.list, b'.holds server.name seg.id = true ↔
          turn.holds server.name seg.id = true ∨ turn.hasRoom server.name (segmentSizeBytes seg)) ∧
      ((runBalanceRegistered chrono cost fromValue now store b').2 = .ok [] ↔
        ∀ seg ∈ segments, placementOf chrono now rulesByDs seg = .ok .broadcast → Full b' seg b'.registry.list) := by
  have hplaced : Placed b := hb ▸ placed_run calls
  have hids := hkeyed segments hsegments
  by_cases hservers : b.registry.list = []
  · have hsame : b' = b := by
      unfold runBalanceRegistered at hrun
      rw [if_pos hservers] at hrun
      exact (Prod.ext_iff.1 hrun).1.symm
    subst hsame
    have hexact := fun seg hseg placement hp => @exact_of_noServers seg b' hplaced hservers placement (hsupplied seg hseg placement hp)
    refine ⟨hexact, fun id _ => ?_, fun pre seg post _ _ server hserver => ?_, ?_⟩
    · exact holders_eq_nil.2 fun n => copies_of_noServers hplaced hservers n id
    · rw [hservers] at hserver
      cases hserver
    · rw [runBalanceRegistered, if_pos hservers, hservers]
      exact iff_of_true rfl fun _ _ _ => nofun
  rw [runBalanceRegistered_eq hservers hsegments hrules] at hrun
  have hboard : (placeSegments chrono cost now rulesByDs segments (dropAllUnused segments ⟨b, []⟩)).1.board = b' := congrArg Prod.fst hrun
  have hdropped : Placed (dropAllUnused segments ⟨b, []⟩).board :=
    (dropAllUnused_grows segments ⟨b, []⟩).inv (fun _ _ _ hmove _ => placed_of_moves hmove) hplaced
  have hok : (placeSegments chrono cost now rulesByDs segments (dropAllUnused segments ⟨b, []⟩)).2 = .ok () := by
    have hresult := congrArg Prod.snd hrun
    simp only at hresult
    cases h : (placeSegments chrono cost now rulesByDs segments (dropAllUnused segments ⟨b, []⟩)).2 with
    | error e =>
      rw [h] at hresult
      cases hresult
    | ok _ => rfl
  have hexact : ∀ seg ∈ segments, ∀ placement, placementOf chrono now rulesByDs seg = .ok placement → Exact b' seg placement := by
    intro seg hseg placement hp
    obtain ⟨pre, post, hsplit⟩ := append_of_mem hseg
    obtain ⟨hturn, htiers, -, hcopies⟩ := placeSegments_exact hids hdropped hok hsplit hp
    have hone := @placeSegment_grows chrono cost seg
      (placeSegments chrono cost now rulesByDs pre (dropAllUnused segments ⟨b, []⟩)).1 placement
    rw [← hboard]
    refine exact_congr hcopies (fun n => (htiers n).trans (hone.tierOf n).symm) (placeSegment_exact hturn ?_)
    refine supplied_congr (fun n => (hcopies n).symm) (fun n => (hone.tierOf n).trans (htiers n).symm) ?_
    exact hboard ▸ hsupplied seg hseg placement hp
  have hunused : ∀ id, id ∉ segments.map (·.id) → b'.holders id = [] := by
    intro id hid
    rw [holders_eq_nil]
    intro n
    rw [← hboard]
    refine (copies_placeSegments_of_ne hid (dropAllUnused segments ⟨b, []⟩) n).trans ?_
    cases hget : b.registry.get n with
    | some server =>
      have hname := b.registry.named n server hget
      rw [← hname] at hget ⊢
      exact @dropAllUnused_unsettled segments ⟨b, []⟩ server (ServerRegistry.mem_list.2 hget) id hid
    | none =>
      have htier := (dropAllUnused_grows segments ⟨b, []⟩).tierOf n
      rw [Board.tierOf, Board.tierOf, hget, Option.map_none, Option.map_eq_none_iff] at htier
      exact copies_of_unknown (b := (dropAllUnused segments ⟨b, []⟩).board) hdropped htier id
  refine ⟨hexact, hunused, fun pre seg post hsplit hp server hserver => ?_, ?_⟩
  · obtain ⟨-, htiers, -, hcopies⟩ := placeSegments_exact hids hdropped hok hsplit hp
    have hknown := mem_names.1 ⟨server, hserver, rfl⟩
    rw [← hboard] at hknown
    rw [htiers] at hknown
    rw [← hboard, Board.holds_iff, hcopies, ← Board.holds_iff]
    exact placeSegment_broadcast hknown
  · refine runBalanceRegistered_again hkeyed hsegments hrules (fun seg hseg => ?_) hexact hunused
    obtain ⟨pre, post, hsplit⟩ := append_of_mem hseg
    rw [hsplit] at hok
    obtain ⟨p, hp, -⟩ := placeSegments_split hok
    exact ⟨p, hp⟩

/-! ## A full server -/

/-- A segment for every server, and then another one. -/
def sharedAndOwn : MetadataStore where
  getAllDataSources := .ok ["shared", "wiki"]
  getUsedSegments ds := .ok [⟨ds ++ "_0", ds, "", "", .object [(sizeKey, .number (.int 600 (by decide)))]⟩]
  getRules ds := .ok [.bool (ds = "shared")]

/-- The one goes everywhere, the other one is loaded or dropped. -/
def shareAnd (own : LoadRule) : Json → Except String LoadRule
  | .bool true => .ok .broadcastForever
  | _ => .ok own

/-- The second segment alone. -/
def own : MetadataStore := { sharedAndOwn with getAllDataSources := .ok ["wiki"] }

def ownLoaded : List Call := [.registerServer (hist1 0), .runBalanceRegistered 0 own]

/-- The drop of the second segment makes room for the first, whose turn is over. -/
theorem cycle_again_loads :
    let b := ownLoaded.foldl (call noChrono flatCost oneCopy 5) .empty
    let first := runBalanceRegistered noChrono flatCost (shareAnd .dropForever) 0 sharedAndOwn b
    let second := runBalanceRegistered noChrono flatCost (shareAnd .dropForever) 0 sharedAndOwn first.1
    first.2.map (·.map (·.1)) = .ok [.drop "hist-1" "wiki_0"] ∧ second.2.map (·.map (·.1)) = .ok [.load "hist-1" "shared_0"] := by
  decide +kernel

theorem cycle_exact_own :
    (runBalanceRegistered noChrono flatCost oneCopy 0 own (ownLoaded.foldl (call noChrono flatCost oneCopy 5) .empty)).2 = .ok [] := by
  have hended : (runBalanceRegistered noChrono flatCost oneCopy 0 own (registerServer (hist1 0) .empty)).2.toOption.isSome = true := by
    decide +kernel
  have hcount : (runBalanceRegistered noChrono flatCost oneCopy 0 own (registerServer (hist1 0) .empty)).1.countTierReplicas "wiki_0"
      "_default_tier" = 1 := by decide +kernel
  have hafter : ownLoaded.foldl (call noChrono flatCost oneCopy 5) .empty =
      (runBalanceRegistered noChrono flatCost oneCopy 0 own (registerServer (hist1 0) .empty)).1 := rfl
  rw [hafter]
  cases hrun : runBalanceRegistered noChrono flatCost oneCopy 0 own (registerServer (hist1 0) .empty) with
  | mk b' result =>
    rw [hrun] at hended hcount
    cases result with
    | error e => cases hended
    | ok history =>
      refine ((cycle_exact noChrono flatCost oneCopy 5 [.registerServer (hist1 0)] 0
        (fun segments hsegments => by cases hsegments; decide) rfl rfl rfl hrun fun seg hseg placement hp => ?_).2.2.2).2
        fun seg hseg hp => ?_
      · rw [mem_singleton.1 hseg] at hp ⊢
        cases hp
        intro tier replicas hlookup
        rw [show sortedByKey ((∅ : HashMap String ℕ).insert "_default_tier" 1) = (∅ : HashMap String ℕ).insert "_default_tier" 1 by
          decide] at hlookup
        by_cases htier : tier = "_default_tier"
        · rw [htier, AList.lookup_insert] at hlookup
          rw [← Option.some.inj hlookup, htier]
          exact hcount.ge
        · rw [AList.lookup_insert_ne htier] at hlookup
          cases hlookup
      · rw [mem_singleton.1 hseg] at hp
        cases hp

end FerroDruid.Coordinator
