import FerroDruid.Coordinator.Availability
/-!
# Rebalancing and tiers

A rebalance looks for servers of the tier that was written down with a segment
when it was placed. This is the tier of the server it is on, unless that server
was given another one since.
-/

namespace FerroDruid.Coordinator

open Lib List

/-! ## Tiers of assignments -/

/-- Every assignment is written down under the tier of its server. -/
def Tiered (b : Board) : Prop := ∀ name, ∀ a ∈ b.on name, b.tierOf name = some a.tier

/-- A server that has segments keeps its tier. -/
def TierKept (b : Board) : Call → Prop
  | .registerServer server => b.on server.name = [] ∨ b.tierOf server.name = some server.tier
  | .updateServer name (some tier) _ => b.on name = [] ∨ b.tierOf name = some tier
  | _ => True

theorem tiered_of_moves {b b' : Board} {e : SegmentLoadAction} (h : Moves b e b') (hb : Tiered b) : Tiered b' := by
  intro name' x hx
  rw [tierOf_of_moves h]
  cases h with
  | @load name server a known fits fresh tiered =>
    rw [Board.on_place] at hx
    split_ifs at hx with hname
    · rcases mem_append.1 hx with hx | hx
      · exact hname ▸ hb name x hx
      · rw [mem_singleton.1 hx, Board.tierOf, hname, known, tiered]
        rfl
    · exact hb name' x hx
  | @drop name a kept rest on first =>
    rw [Board.on_unplace _ _ (by simp [on])] at hx
    split_ifs at hx with hname
    · refine hname ▸ hb name x ?_
      rw [on, mem_append, mem_cons]
      exact (mem_append.1 hx).imp_right .inr
    · exact hb name' x hx

theorem tiered_registerServer {b : Board} {server : ServerInfo} (hb : Tiered b)
    (h : b.on server.name = [] ∨ b.tierOf server.name = some server.tier) : Tiered (registerServer server b) := by
  intro name a ha
  have ha' : a ∈ b.on name := ha
  have hname := hb name a ha'
  rw [Board.tierOf, registerServer, ServerRegistry.get_register]
  split_ifs with heq
  · subst heq
    rcases h with hnil | htier
    · rw [hnil] at ha'
      cases ha'
    · rw [← hname, htier]
      rfl
  · exact hname

theorem tiered_updateServer {b : Board} {name : String} {tier : Option String} (maxSize : Option UInt64) (hb : Tiered b)
    (h : ∀ t, tier = some t → b.on name = [] ∨ b.tierOf name = some t) : Tiered (updateServer name tier maxSize b) := by
  intro name' a ha
  have ha' : a ∈ b.on name' := ha
  have htier := hb name' a ha'
  rw [Board.tierOf, updateServer, ServerRegistry.update, ServerRegistry.get_alter]
  split_ifs with heq
  · subst heq
    rw [Option.map_map]
    cases tier with
    | none => exact htier
    | some t =>
      rcases h t rfl with hnil | ht
      · rw [hnil] at ha'
        cases ha'
      · obtain ⟨server, hserver, -⟩ := Option.map_eq_some_iff.1 ht
        rw [← htier, ht, hserver]
        rfl
  · exact htier

theorem tiered_removeServer {b : Board} (name : String) (hplaced : Placed b) (hb : Tiered b) : Tiered (removeServer name b) := by
  intro name' a ha
  rw [on_removeServer b name name' hplaced] at ha
  split_ifs at ha with heq
  · cases ha
  · rw [← hb name' a ha]
    show ((b.registry.remove name).get name').map _ = _
    rw [ServerRegistry.get_remove, if_neg heq]
    rfl

section

variable {chrono : Chrono} {cost : CostModel} {fromValue : Json → Except String LoadRule} {maxSegmentsToMove : ℕ}

theorem tiered_call {b : Board} {i : Call} (hplaced : Placed b) (hb : Tiered b) (h : TierKept b i) :
    Tiered (call chrono cost fromValue maxSegmentsToMove b i) := by
  have hstep : ∀ b e b', Moves b e b' → Tiered b → Tiered b' := fun _ _ _ => tiered_of_moves
  cases i with
  | registerServer server => exact tiered_registerServer hb h
  | updateServer name tier maxSize =>
    refine tiered_updateServer maxSize hb fun t ht => ?_
    subst ht
    exact h
  | removeServer name => exact tiered_removeServer name hplaced hb
  | runBalance now store servers =>
    -- a server that is not known has no segments
    have hnew : ∀ s b, b.registry.get s.name = none → Placed b ∧ Tiered b → Placed (registerServer s b) ∧ Tiered (registerServer s b) := by
      intro s b hnone hb
      refine ⟨placed_registerServer s hb.1, tiered_registerServer hb.2 (.inl ?_)⟩
      by_contra hne
      have := hb.1.registered _ hne
      rw [hnone] at this
      cases this
    exact runBalanceRegistered_inv hstep now store (registerNew_inv hnew servers ⟨hplaced, hb⟩).2
  | runBalanceRegistered now store => exact runBalanceRegistered_inv hstep now store hb
  | rebalance => exact rebalance_inv hstep hb

theorem tiered_run {calls : List Call} (h : Guarded (call chrono cost fromValue maxSegmentsToMove) TierKept .empty calls) :
    Tiered (calls.foldl (call chrono cost fromValue maxSegmentsToMove) .empty) := by
  have hempty : Placed .empty ∧ Tiered .empty := ⟨placed_empty, fun _ _ ha => by cases ha⟩
  exact (h.inv (fun b => Placed b ∧ Tiered b) (fun _ i hi hb => ⟨placed_call i hb.1, tiered_call hb.1 hb.2 hi⟩) hempty).2

end

/-! ## Transfers -/

/-- A segment that is on one server can go to another. -/
structure CanGo (b : Board) (src dest : String) (a : SegmentAssignment) : Prop where
  on : a ∈ b.on src
  fresh : b.holds dest a.segmentId = false
  room : ∃ server, b.registry.get dest = some server ∧ server.canHold a.sizeBytes = true

/-- A number of segments go from server to server, each by a load and then a
drop. -/
inductive Transfers (P : Board → String → String → SegmentAssignment → Prop) :
    Board → List (SegmentLoadAction × Board) → ℕ → Board → Prop where
  | nil (b : Board) : Transfers P b [] 0 b
  | cons {b b1 b2 t : Board} {src dest : String} {a : SegmentAssignment} {hs : List (SegmentLoadAction × Board)} {n : ℕ}
    (can : P b src dest a) (load : Moves b (.load dest a.segmentId) b1) (drop : Moves b1 (.drop src a.segmentId) b2)
    (rest : Transfers P b2 hs n t) :
    Transfers P b ((.load dest a.segmentId, b1) :: (.drop src a.segmentId, b2) :: hs) (n + 1) t

namespace Transfers

variable {P Q : Board → String → String → SegmentAssignment → Prop} {b t u : Board} {hs hs' : List (SegmentLoadAction × Board)}
  {n n' : ℕ}

theorem append (h : Transfers P b hs n t) (h' : Transfers P t hs' n' u) : Transfers P b (hs ++ hs') (n + n') u := by
  induction h with
  | nil =>
    rw [Nat.zero_add]
    exact h'
  | @cons b b1 b2 t src dest a hs n can load drop _ ih =>
    rw [Nat.add_right_comm]
    exact .cons can load drop (ih h')

theorem inv {I : Board → Prop} (hstep : ∀ b e b', Moves b e b' → I b → I b') (h : Transfers P b hs n t) (hb : I b) : I t := by
  induction h with
  | nil => exact hb
  | cons _ load drop _ ih => exact ih (hstep _ _ _ drop (hstep _ _ _ load hb))

theorem imp {I : Board → Prop} (hstep : ∀ b e b', Moves b e b' → I b → I b') (himp : ∀ b src dest a, I b → P b src dest a → Q b src dest a)
    (h : Transfers P b hs n t) (hb : I b) : Transfers Q b hs n t := by
  induction h with
  | nil => exact .nil _
  | cons can load drop _ ih => exact .cons (himp _ _ _ _ hb can) load drop (ih (hstep _ _ _ drop (hstep _ _ _ load hb)))

end Transfers

theorem copies_le_one {b : Board} (hb : Placed b) (name id : String) : b.copies name id ≤ 1 := by
  have hcount : b.copies name id = ((b.on name).map (·.segmentId)).count id := by
    rw [List.count, countP_map]
    exact countP_congr fun a _ => by simp
  rw [hcount]
  exact nodup_iff_count_le_one.1 (hb.once name) id

/-- A segment that goes to a server of the same tier leaves as many copies in
every tier. -/
theorem countTierReplicas_transfer {b b1 b2 : Board} {src dest : String} {a : SegmentAssignment} (hb : Placed b) (hgo : CanGo b src dest a)
    (htier : b.tierOf src = b.tierOf dest) (load : Moves b (.load dest a.segmentId) b1) (drop : Moves b1 (.drop src a.segmentId) b2)
    (id tier : String) : b2.countTierReplicas id tier = b.countTierReplicas id tier := by
  rw [Board.countTierReplicas_eq, Board.countTierReplicas_eq]
  have hcopies : ∀ n, b2.copies n id = b.copies n id + (if n = dest ∧ id = a.segmentId then 1 else 0) -
      if n = src ∧ id = a.segmentId then 1 else 0 := fun n => by rw [copies_drop drop, copies_load load]
  have htiers : ∀ n, b2.tierOf n = b.tierOf n := fun n => (tierOf_of_moves drop n).trans (tierOf_of_moves load n)
  by_cases hid : id = a.segmentId
  swap
  · have hsame : b2.tierSet id tier = b.tierSet id tier := by
      ext n
      rw [Board.mem_tierSet, Board.mem_tierSet, hcopies, htiers]
      simp [hid]
    rw [hsame]
  subst hid
  have hsrc : b.copies src a.segmentId = 1 := by
    have hpos : 0 < b.copies src a.segmentId := countP_pos_iff.2 ⟨a, hgo.on, by simp⟩
    have := copies_le_one hb src a.segmentId
    omega
  have hdest : b.copies dest a.segmentId = 0 := by
    have := hgo.fresh
    rw [← Bool.not_eq_true, Board.holds_iff] at this
    omega
  have hne : dest ≠ src := fun heq => by
    rw [heq, hsrc] at hdest
    cases hdest
  by_cases htiersrc : b.tierOf src = some tier
  · have hmem : src ∈ b.tierSet a.segmentId tier := Board.mem_tierSet.2 ⟨hsrc ▸ Nat.one_pos, htiersrc⟩
    have hnotin : dest ∉ (b.tierSet a.segmentId tier).erase src := fun h => by
      have := (Board.mem_tierSet.1 (Finset.mem_of_mem_erase h)).1
      omega
    have hset : b2.tierSet a.segmentId tier = insert dest ((b.tierSet a.segmentId tier).erase src) := by
      ext n
      rw [Finset.mem_insert, Finset.mem_erase, Board.mem_tierSet, Board.mem_tierSet, hcopies, htiers]
      by_cases hn : n = dest
      · subst hn
        simp [hne, ← htier, htiersrc]
      · by_cases hn' : n = src
        · subst hn'
          simp [hsrc, hn]
        · simp [hn, hn']
    rw [hset, Finset.card_insert_of_notMem hnotin, Finset.card_erase_of_mem hmem]
    exact Nat.sub_add_cancel (Finset.card_pos.2 ⟨src, hmem⟩)
  · have hset : b2.tierSet a.segmentId tier = b.tierSet a.segmentId tier := by
      ext n
      rw [Board.mem_tierSet, Board.mem_tierSet, hcopies, htiers]
      by_cases hn : n = dest
      · subst hn
        simp [← htier, htiersrc]
      · by_cases hn' : n = src
        · subst hn'
          simp [htiersrc]
        · simp [hn, hn']
    rw [hset]

theorem Transfers.countTierReplicas {P : Board → String → String → SegmentAssignment → Prop} {b t : Board}
    {hs : List (SegmentLoadAction × Board)} {n : ℕ} (h : Transfers P b hs n t) (hb : Placed b)
    (hP : ∀ b src dest a, P b src dest a → CanGo b src dest a ∧ b.tierOf src = b.tierOf dest) (id tier : String) :
    t.countTierReplicas id tier = b.countTierReplicas id tier := by
  induction h with
  | nil => rfl
  | cons can load drop _ ih =>
    obtain ⟨hgo, htier⟩ := hP _ _ _ _ can
    rw [ih (placed_of_moves drop (placed_of_moves load hb)), countTierReplicas_transfer hb hgo htier load drop]

/-! ## A rebalance is transfers -/

/-- What is transferred goes to a server of the tier it is written down under. -/
def ToItsTier (b : Board) (src dest : String) (a : SegmentAssignment) : Prop := CanGo b src dest a ∧ b.tierOf dest = some a.tier

/-- Transfers, as many as are taken from the moves that are left. -/
def Rebalances (st st' : Cycle × ℕ) : Prop :=
  ∃ hs n, st'.1.history = st.1.history ++ hs ∧ n + st'.2 = st.2 ∧ Transfers ToItsTier st.1.board hs n st'.1.board

namespace Rebalances

variable {st st' st'' : Cycle × ℕ}

theorem refl (st : Cycle × ℕ) : Rebalances st st := ⟨[], 0, by simp, by simp, .nil _⟩

theorem trans (h : Rebalances st st') (h' : Rebalances st' st'') : Rebalances st st'' := by
  obtain ⟨hs, n, hhist, hleft, htransfers⟩ := h
  obtain ⟨hs', n', hhist', hleft', htransfers'⟩ := h'
  refine ⟨hs ++ hs', n + n', ?_, ?_, htransfers.append htransfers'⟩
  · rw [hhist', hhist, append_assoc]
  · omega

theorem placed (h : Rebalances st st') (hb : Placed st.1.board) : Placed st'.1.board := by
  obtain ⟨hs, n, -, -, htransfers⟩ := h
  exact htransfers.inv (fun _ _ _ => placed_of_moves) hb

end Rebalances

/-- The drop of a segment that is there; the others stay. -/
theorem removeAssignment_of_mem {c : Cycle} {server : String} {a : SegmentAssignment} (ha : a ∈ c.board.on server) :
    ∃ b, c.removeAssignment server a.segmentId = ⟨b, c.history ++ [(.drop server a.segmentId, b)]⟩ ∧
      Moves c.board (.drop server a.segmentId) b ∧
      ∀ x ∈ c.board.on server, x.segmentId ≠ a.segmentId → x ∈ b.on server := by
  unfold Cycle.removeAssignment
  cases hfind : (c.board.on server).find? (·.segmentId = a.segmentId) with
  | none => exact absurd (find?_eq_none.1 hfind a ha) (by simp)
  | some x =>
    obtain ⟨hx, kept, rest, hon, hfirst⟩ := find?_eq_some_iff_append.1 hfind
    have hid := of_decide_eq_true hx
    have herase : (c.board.on server).eraseP (·.segmentId = a.segmentId) = kept ++ rest := by
      rw [hon, eraseP_append_right _ (fun x hx => by simpa using hfirst x hx), eraseP_cons_of_pos (by simpa using hid)]
    refine ⟨c.board.unplace server (kept ++ rest) x, ?_, ?_, fun y hy hne => ?_⟩
    · simp only [herase, Cycle.drop, hid]
    · rw [← hid]
      exact .drop hon fun y hy => by simpa [hid] using hfirst y hy
    · rw [Board.on_unplace _ _ (by simp [hon]), if_pos rfl, ← herase]
      exact (mem_eraseP_of_neg (by simpa using hne)).2 hy

section

variable {cost : CostModel}

theorem rebalanceSegment_rebalances {src : ServerInfo} {st : Cycle × ℕ} {a : SegmentAssignment} (ha : a ∈ st.1.board.on src.name) :
    Rebalances st (rebalanceSegment cost src st a) ∧
      ∀ x ∈ st.1.board.on src.name, x.segmentId ≠ a.segmentId → x ∈ (rebalanceSegment cost src st a).1.board.on src.name := by
  have hnone : Rebalances st st ∧ ∀ x ∈ st.1.board.on src.name, x.segmentId ≠ a.segmentId → x ∈ st.1.board.on src.name :=
    ⟨.refl st, fun _ hx _ => hx⟩
  unfold rebalanceSegment
  simp only
  split_ifs with hleft
  · exact hnone
  split
  · exact hnone
  rename_i dest destCost hcheapest
  obtain ⟨⟨cand, hcand, hdest⟩, hfresh, live, hlive, hfits⟩ := cheapest_some hcheapest
  obtain ⟨hlist, hcand⟩ := mem_filter.1 hcand
  simp only [decide_eq_true_eq] at hcand
  have hne : src.name ≠ dest := fun heq => hcand.2 (hdest.trans heq.symm)
  have htier : st.1.board.tierOf dest = some a.tier := by
    rw [← hdest, Board.tierOf, ServerRegistry.mem_list.1 hlist, ← hcand.1]
    rfl
  split_ifs
  swap
  · exact hnone
  set placed : SegmentAssignment := { a with tier := ((st.1.board.registry.get dest).map (·.tier)).getD a.tier }
  have hload : Moves st.1.board (.load dest placed.segmentId) (st.1.board.place dest placed) :=
    .load hlive hfits hfresh (by simp [placed, hlive])
  -- the source has the segment still
  have hon : (st.1.load dest placed).board.on src.name = st.1.board.on src.name := by
    rw [Cycle.load, Board.on_place, if_neg hne]
  obtain ⟨b2, heq, hdrop, hrest⟩ := removeAssignment_of_mem (hon ▸ ha : a ∈ (st.1.load dest placed).board.on src.name)
  rw [heq]
  refine ⟨⟨_, 1, append_assoc _ _ _, by omega, ?_⟩, hon ▸ hrest⟩
  exact .cons (a := a) ⟨⟨ha, hfresh, live, hlive, hfits⟩, htier⟩ hload hdrop (.nil b2)

theorem rebalanceServer_rebalances {st : Cycle × ℕ} (hb : Placed st.1.board) (src : ServerInfo) :
    Rebalances st (rebalanceServer cost st src) := by
  have hfold : ∀ (segs : List SegmentAssignment) (st : Cycle × ℕ), (segs.map (·.segmentId)).Nodup →
      (∀ a ∈ segs, a ∈ st.1.board.on src.name) → Rebalances st (segs.foldl (rebalanceSegment cost src) st) := by
    intro segs
    induction segs with
    | nil => exact fun st _ _ => .refl st
    | cons a segs ih =>
      intro st hids hon
      obtain ⟨ha, hids⟩ := nodup_cons.1 hids
      rw [forall_mem_cons] at hon
      obtain ⟨hone, hstay⟩ := @rebalanceSegment_rebalances cost src st a hon.1
      -- the rest of the snapshot is other segments
      refine hone.trans (ih _ hids fun x hx => hstay x (hon.2 x hx) fun heq => ha ?_)
      exact mem_map.2 ⟨x, hx, heq⟩
  unfold rebalanceServer
  split_ifs
  · exact .refl st
  · exact hfold _ st (hb.once src.name) fun _ => id

theorem rebalance_transfers (maxSegmentsToMove : ℕ) {b : Board} (hb : Placed b) :
    ∃ n ≤ maxSegmentsToMove,
      Transfers ToItsTier b (rebalance cost maxSegmentsToMove b).history n (rebalance cost maxSegmentsToMove b).board := by
  have hfold : ∀ (servers : List ServerInfo) (st : Cycle × ℕ), Placed st.1.board →
      Rebalances st (servers.foldl (rebalanceServer cost) st) := by
    intro servers
    induction servers with
    | nil => exact fun st _ => .refl st
    | cons src servers ih =>
      intro st hst
      have hone := @rebalanceServer_rebalances cost st hst src
      exact hone.trans (ih _ (hone.placed hst))
  unfold rebalance
  split_ifs
  · exact ⟨0, Nat.zero_le _, .nil b⟩
  · obtain ⟨hs, n, hhist, hleft, htransfers⟩ := hfold (b.registry.list.insertionSort fun x y => ¬ (cost.fillRatio x).lt (cost.fillRatio y))
      (⟨b, []⟩, maxSegmentsToMove) hb
    rw [hhist]
    exact ⟨n, Nat.le.intro hleft, htransfers⟩

end

/-- After any run, a rebalance transfers no more segments than it may, each to a
server that does not have it and has room. If no server that has segments was
given another tier on the way, each goes between servers of one tier, and every
tier has as many copies as before. -/
theorem rebalance_keeps_tiers (chrono : Chrono) (cost : CostModel) (fromValue : Json → Except String LoadRule) (maxSegmentsToMove : ℕ)
    (calls : List Call) :
    let b := calls.foldl (call chrono cost fromValue maxSegmentsToMove) .empty
    let c := rebalance cost maxSegmentsToMove b
    (∃ n ≤ maxSegmentsToMove, Transfers CanGo b c.history n c.board) ∧
      (Guarded (call chrono cost fromValue maxSegmentsToMove) TierKept .empty calls →
        (∃ n ≤ maxSegmentsToMove,
          Transfers (fun b' src dest a => CanGo b' src dest a ∧ b.tierOf src = b.tierOf dest) b c.history n c.board) ∧
        ∀ id tier, c.board.countTierReplicas id tier = b.countTierReplicas id tier) := by
  intro b c
  have hb : Placed b := placed_run calls
  obtain ⟨n, hn, htransfers⟩ := @rebalance_transfers cost maxSegmentsToMove b hb
  refine ⟨⟨n, hn, ?_⟩, fun h => ?_⟩
  · exact htransfers.imp (I := fun _ => True) (fun _ _ _ _ => id) (fun _ _ _ _ _ hto => hto.1) trivial
  have hsame : Transfers (fun b' src dest a => CanGo b' src dest a ∧ b'.tierOf src = b'.tierOf dest) b c.history n c.board :=
    htransfers.imp (fun _ _ _ => tiered_of_moves) (fun _ _ _ _ hb hto => ⟨hto.1, (hb _ _ hto.1.on).trans hto.2.symm⟩) (tiered_run h)
  refine ⟨⟨n, hn, ?_⟩, hsame.countTierReplicas hb fun _ _ _ _ => id⟩
  refine hsame.imp (I := fun b' => ∀ name, b'.tierOf name = b.tierOf name) (fun _ _ _ hmove hI name => ?_) (fun _ _ _ _ hI hto => ?_)
    fun _ => rfl
  · rw [tierOf_of_moves hmove, hI]
  · rw [← hI, ← hI]
    exact hto

/-! ## A server of another tier -/

/-- The first days of 2024. -/
def newYear : Chrono :=
  { noChrono with
    parseUtc := fun s =>
      if s = "2024-01-01T00:00:00.000Z" then some 1704067200000
      else if s = "2024-01-02T00:00:00.000Z" then some 1704153600000
      else if s = "2024-01-03T00:00:00.000Z" then some 1704240000000 else none }

/-- A store with two used segments, a day each, which every rule loads. -/
def twoSegments : MetadataStore where
  getAllDataSources := .ok ["wiki"]
  getUsedSegments _ := .ok
    [⟨"seg_0", "wiki", "2024-01-01T00:00:00.000Z", "2024-01-02T00:00:00.000Z", .object [(sizeKey, .number (.int 100 (by decide)))]⟩,
      ⟨"seg_1", "wiki", "2024-01-02T00:00:00.000Z", "2024-01-03T00:00:00.000Z", .object [(sizeKey, .number (.int 100 (by decide)))]⟩]
  getRules _ := .ok [.null]

def oneCopy : Json → Except String LoadRule := fun _ => .ok (.loadForever ((∅ : HashMap String ℕ).insert "_default_tier" 1))

/-- Two segments are loaded on the only server; it is given a tier, or it is
not, and a second server comes. -/
def loadedThen (tier : Option String) : List Call :=
  [.registerServer (hist1 0), .runBalanceRegistered 0 twoSegments, .updateServer "hist-1" tier none, .registerServer hist2]

/-- What goes from a server that is cold now goes to one of its old tier. -/
theorem rebalance_leaves_tier :
    let b := (loadedThen (some "cold")).foldl (call newYear crowdCost oneCopy 5) .empty
    let c := rebalance crowdCost 5 b
    c.history.map (·.1) = [.load "hist-2" "seg_0", .drop "hist-1" "seg_0"] ∧
      b.tierOf "hist-1" = some "cold" ∧ b.tierOf "hist-2" = some "_default_tier" ∧
      b.countTierReplicas "seg_0" "cold" = 1 ∧ c.board.countTierReplicas "seg_0" "cold" = 0 := by decide +kernel

theorem rebalance_keeps_tiers_two :
    let b := (loadedThen none).foldl (call newYear crowdCost oneCopy 5) .empty
    ∀ id tier, (rebalance crowdCost 5 b).board.countTierReplicas id tier = b.countTierReplicas id tier := by
  refine ((rebalance_keeps_tiers newYear crowdCost oneCopy 5 (loadedThen none)).2 ⟨.inl rfl, trivial, trivial, .inl ?_, trivial⟩).2
  decide +kernel

end FerroDruid.Coordinator
