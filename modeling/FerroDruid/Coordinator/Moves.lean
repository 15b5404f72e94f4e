import FerroDruid.Coordinator.Balance
import FerroDruid.Lib.Trace
/-!
# What an action does

Whatever the coordinator decides, the board changes by two moves: a segment is
placed, under the tier of a registered server, where there is room for it and it
is not there yet, or the first assignment of a segment on a server goes. A cycle and a rebalance are
histories of such moves, so what the moves keep, they keep.
-/

namespace FerroDruid.Coordinator

open Lib List

inductive Moves (b : Board) : SegmentLoadAction → Board → Prop where
  | load {name : String} {server : ServerInfo} {a : SegmentAssignment} (known : b.registry.get name = some server)
    (fits : server.canHold a.sizeBytes = true) (fresh : b.holds name a.segmentId = false) (tiered : a.tier = server.tier) :
    Moves b (.load name a.segmentId) (b.place name a)
  | drop {name : String} {a : SegmentAssignment} {kept rest : List SegmentAssignment} (on : b.on name = kept ++ a :: rest)
    (first : ∀ x ∈ kept, x.segmentId ≠ a.segmentId) : Moves b (.drop name a.segmentId) (b.unplace name (kept ++ rest) a)

/-- The cycle goes on by a history of moves that meet a condition. -/
def Grows (P : Board → SegmentLoadAction → Board → Prop) (c c' : Cycle) : Prop :=
  ∃ hs, c'.history = c.history ++ hs ∧ Trace (fun b e b' => Moves b e b' ∧ P b e b') c.board hs c'.board

namespace Grows

variable {P Q : Board → SegmentLoadAction → Board → Prop} {c c' c'' : Cycle}

theorem refl (c : Cycle) : Grows P c c := ⟨[], by simp, .nil _⟩

theorem trans (h : Grows P c c') (h' : Grows P c' c'') : Grows P c c'' := by
  obtain ⟨hs, hhist, htrace⟩ := h
  obtain ⟨hs', hhist', htrace'⟩ := h'
  exact ⟨hs ++ hs', by rw [hhist', hhist, append_assoc], htrace.append htrace'⟩

theorem imp (himp : ∀ b e b', Moves b e b' → P b e b' → Q b e b') (h : Grows P c c') : Grows Q c c' := by
  obtain ⟨hs, hhist, htrace⟩ := h
  exact ⟨hs, hhist, htrace.imp fun b e b' h => ⟨h.1, himp b e b' h.1 h.2⟩⟩

theorem foldl {α : Type} {f : Cycle → α → Cycle} {xs : List α} (h : ∀ x ∈ xs, ∀ c, Grows P c (f c x)) (c : Cycle) :
    Grows P c (xs.foldl f c) := by
  induction xs generalizing c with
  | nil => exact refl c
  | cons x xs ih =>
    rw [forall_mem_cons] at h
    exact (h.1 c).trans (ih h.2 _)

end Grows

/-! ## Every function moves -/

theorem removeAssignment_grows (c : Cycle) (server segmentId : String) :
    Grows (fun _ e _ => e = .drop server segmentId) c (c.removeAssignment server segmentId) := by
  unfold Cycle.removeAssignment
  cases hfind : (c.board.on server).find? (·.segmentId = segmentId) with
  | none => exact .refl c
  | some a =>
    obtain ⟨ha, kept, rest, hon, hfirst⟩ := find?_eq_some_iff_append.1 hfind
    obtain rfl := of_decide_eq_true ha
    have herase : (c.board.on server).eraseP (·.segmentId = a.segmentId) = kept ++ rest := by
      rw [hon, eraseP_append_right _ (fun x hx => by simpa using hfirst x hx), eraseP_cons_of_pos (by simp)]
    refine ⟨_, rfl, .single ⟨?_, rfl⟩⟩
    simp only [herase]
    exact .drop hon fun x hx => by simpa using hfirst x hx

theorem dropUnused_grows {used : String → Bool} {name : String} {kept rest : List SegmentAssignment} {c : Cycle}
    (hon : c.board.on name = kept ++ rest) (hkept : ∀ x ∈ kept, used x.segmentId = true) :
    Grows (fun _ e _ => ∃ id, used id = false ∧ e = .drop name id) c (c.dropUnused used name kept rest) := by
  induction rest generalizing kept c with
  | nil => exact .refl c
  | cons a rest ih =>
    unfold Cycle.dropUnused
    split_ifs with hused
    · refine ih (by simpa using hon) ?_
      simpa [or_imp, forall_and] using ⟨hkept, hused⟩
    · have hfirst : ∀ x ∈ kept, x.segmentId ≠ a.segmentId := fun x hx heq => hused (heq ▸ hkept x hx)
      have hne : c.board.on name ≠ [] := by simp [hon]
      refine Grows.trans ⟨_, rfl, .single ⟨.drop hon hfirst, a.segmentId, by simpa using hused, rfl⟩⟩ (ih ?_ hkept)
      rw [Cycle.drop, Board.on_unplace _ _ hne, if_pos rfl]

variable {b : Board}

theorem cheapest_some {candidates : List ServerInfo} {skip : String → Bool} {size : UInt64}
    {costOn : String → ServerInfo → F64} {name : String} {x : F64} (h : cheapest b candidates skip size costOn = some (name, x)) :
    (∃ cand ∈ candidates, cand.name = name) ∧ skip name = false ∧
      ∃ live, b.registry.get name = some live ∧ live.canHold size = true := by
  refine List.foldlRecOn (motive := fun best : Option (String × F64) => ∀ r ∈ best, (∃ cand ∈ candidates, cand.name = r.1) ∧
    skip r.1 = false ∧ ∃ live, b.registry.get r.1 = some live ∧ live.canHold size = true) candidates _ (by simp) ?_ (name, x) h
  intro best hbest cand hcand r' hr'
  split_ifs at hr' with hskip
  · exact hbest r' hr'
  split at hr'
  · exact hbest r' hr'
  rename_i live hlive
  split_ifs at hr' with hroom
  · exact hbest r' hr'
  have hthis : (∃ c ∈ candidates, c.name = cand.name) ∧ skip cand.name = false ∧
      ∃ live, b.registry.get cand.name = some live ∧ live.canHold size = true :=
    ⟨⟨cand, hcand, rfl⟩, by simpa using hskip, live, hlive, by simpa using hroom⟩
  simp only at hr'
  split at hr'
  · cases hr'
    exact hthis
  · split_ifs at hr'
    · cases hr'
      exact hthis
    · exact hbest r' hr'

/-- A copy of a segment of a size is placed on a candidate. -/
def LoadsOn (candidates : List ServerInfo) (segmentId : String) (size : UInt64) (b : Board) (e : SegmentLoadAction) (b' : Board) :
    Prop :=
  ∃ name a, (∃ cand ∈ candidates, cand.name = name) ∧ e = .load name segmentId ∧ b' = b.place name a ∧ a.segmentId = segmentId ∧
    a.sizeBytes = size

section

variable {chrono : Chrono} {cost : CostModel} (seg : SegmentMetadataRow)

theorem addReplicas_grows (interval : Interval) (size : UInt64) (candidates : List ServerInfo)
    (missing : ℕ) (c : Cycle) :
    Grows (LoadsOn candidates seg.id size) c (addReplicas cost seg interval size candidates missing c) := by
  induction missing generalizing c with
  | zero => exact .refl c
  | succ missing ih =>
    unfold addReplicas
    cases hpick : pickBestServer cost c.board interval size candidates (c.board.holds · seg.id) with
    | none => exact .refl c
    | some name =>
      obtain ⟨⟨n, x⟩, hcheapest, rfl⟩ := Option.map_eq_some_iff.1 hpick
      obtain ⟨hcand, hfresh, live, hlive, hfits⟩ := cheapest_some hcheapest
      refine Grows.trans ⟨_, rfl, .single ⟨.load hlive hfits hfresh (by simp [hlive]), ?_⟩⟩ (ih _)
      exact ⟨_, _, hcand, rfl, rfl, rfl, rfl⟩

/-- The moves of one segment: copies of its size are placed, or copies go. -/
def MovesOf (seg : SegmentMetadataRow) (b : Board) (e : SegmentLoadAction) (b' : Board) : Prop :=
  (∃ name a, e = .load name seg.id ∧ b' = b.place name a ∧ a.segmentId = seg.id ∧ a.sizeBytes = segmentSizeBytes seg) ∨
    ∃ name, e = .drop name seg.id

theorem removeAssignments_grows (segmentId : String) (names : List String) (c : Cycle) :
    Grows (fun _ e _ => ∃ name ∈ names, e = .drop name segmentId) c
      (names.foldl (fun c name => c.removeAssignment name segmentId) c) :=
  .foldl (fun name hname c => (removeAssignment_grows c name segmentId).imp fun _ _ _ _ he => ⟨name, hname, he⟩) c

theorem movesOf_of_drop {seg : SegmentMetadataRow} {names : List String} {b b' : Board} {e : SegmentLoadAction}
    (h : ∃ name ∈ names, e = .drop name seg.id) : MovesOf seg b e b' := by
  obtain ⟨name, -, he⟩ := h
  exact .inr ⟨name, he⟩

theorem movesOf_of_loadsOn {seg : SegmentMetadataRow} {candidates : List ServerInfo} {b b' : Board} {e : SegmentLoadAction}
    (h : LoadsOn candidates seg.id (segmentSizeBytes seg) b e b') : MovesOf seg b e b' := by
  obtain ⟨name, a, -, he, hb, hid, hsize⟩ := h
  exact .inl ⟨name, a, he, hb, hid, hsize⟩

theorem ensureReplicas_grows (interval : Interval) (candidates : List ServerInfo) (target : ℕ)
    (allowSurplusDrop : Bool) (c : Cycle) :
    Grows (MovesOf seg) c (ensureReplicas cost seg interval (segmentSizeBytes seg) candidates target allowSurplusDrop c) := by
  unfold ensureReplicas
  simp only
  split_ifs
  · exact .refl c
  · exact (removeAssignments_grows seg.id _ c).imp fun _ _ _ _ he => movesOf_of_drop he
  · exact (addReplicas_grows seg interval _ candidates _ c).imp fun _ _ _ _ he => movesOf_of_loadsOn he

theorem dropSegmentEverywhere_grows (c : Cycle) :
    Grows (MovesOf seg) c (c.dropSegmentEverywhere seg.id) :=
  (removeAssignments_grows seg.id _ c).imp fun _ _ _ _ he => movesOf_of_drop he

theorem ensureTiers_grows (allow : Bool) (desired : List (String × ℕ)) (c : Cycle) :
    Grows (MovesOf seg) c (ensureTiers chrono cost seg allow desired c) :=
  .foldl (fun _ _ c => ensureReplicas_grows seg _ _ _ _ c) c

theorem placeSegment_grows (c : Cycle) (placement : DesiredPlacement) :
    Grows (MovesOf seg) c (placeSegment chrono cost seg c placement) := by
  unfold placeSegment
  cases placement with
  | drop => exact dropSegmentEverywhere_grows seg c
  | broadcast => exact ensureReplicas_grows seg _ _ _ _ c
  | load tiers =>
    simp only
    split_ifs
    · exact dropSegmentEverywhere_grows seg c
    · have hload := @ensureTiers_grows chrono cost seg false (desiredTiers tiers) c
      have htrim := @ensureTiers_grows chrono cost seg true (desiredTiers tiers) (ensureTiers chrono cost seg false (desiredTiers tiers) c)
      exact (hload.trans htrim).trans ((removeAssignments_grows seg.id _ _).imp fun _ _ _ _ he => movesOf_of_drop he)
    · exact ensureTiers_grows seg _ _ c

/-- The moves of a cycle: those of the used segments, and drops of what is not
used. -/
def CycleMoves (segments : List SegmentMetadataRow) (b : Board) (e : SegmentLoadAction) (b' : Board) : Prop :=
  (∃ seg ∈ segments, MovesOf seg b e b') ∨ ∃ name id, id ∉ segments.map (·.id) ∧ e = .drop name id

theorem placeSegments_grows (now : ℤ) (rulesByDs : HashMap String (List LoadRule)) (segs : List SegmentMetadataRow) (c : Cycle) :
    Grows (fun b e b' => ∃ seg ∈ segs, MovesOf seg b e b') c (placeSegments chrono cost now rulesByDs segs c).1 := by
  induction segs generalizing c with
  | nil => exact .refl c
  | cons seg segs ih =>
    unfold placeSegments
    cases placementOf chrono now rulesByDs seg with
    | error e => exact .refl c
    | ok placement =>
      have hone := @placeSegment_grows chrono cost seg c placement
      have hrest := ih (placeSegment chrono cost seg c placement)
      exact (hone.imp fun _ _ _ _ he => ⟨seg, mem_cons_self, he⟩).trans
        (hrest.imp fun _ _ _ _ ⟨s, hs, he⟩ => ⟨s, mem_cons_of_mem _ hs, he⟩)

theorem dropAllUnused_grows (segments : List SegmentMetadataRow) (c : Cycle) :
    Grows (fun _ e _ => ∃ name id, id ∉ segments.map (·.id) ∧ e = .drop name id) c (dropAllUnused segments c) := by
  refine Grows.foldl (fun name _ c => ?_) c
  refine (dropUnused_grows (nil_append _).symm (by simp)).imp fun _ _ _ _ ⟨id, hid, he⟩ => ⟨name, id, ?_, he⟩
  simpa using hid

/-- What a cycle returns is a history of its moves, and so is what it did when
it fails. -/
theorem runBalanceRegistered_grows (fromValue : Json → Except String LoadRule) (now : ℤ) (store : MetadataStore) (b : Board) :
    (∃ e, runBalanceRegistered chrono cost fromValue now store b = (b, .error e)) ∨
      runBalanceRegistered chrono cost fromValue now store b = (b, .ok []) ∨
      ∃ segments rulesByDs, store.loadUsedSegments = .ok segments ∧ store.loadRulesFor fromValue segments = .ok rulesByDs ∧
        ∃ c, c = (placeSegments chrono cost now rulesByDs segments (dropAllUnused segments ⟨b, []⟩)).1 ∧
          Grows (CycleMoves segments) ⟨b, []⟩ c ∧
          runBalanceRegistered chrono cost fromValue now store b =
            (c.board, (placeSegments chrono cost now rulesByDs segments (dropAllUnused segments ⟨b, []⟩)).2.map fun _ => c.history) := by
  unfold runBalanceRegistered
  split_ifs
  · exact .inr (.inl rfl)
  cases hsegments : store.loadUsedSegments with
  | error e => exact .inl ⟨_, rfl⟩
  | ok segments =>
    cases hrules : store.loadRulesFor fromValue segments with
    | error e => exact .inl ⟨.error e, by simp only [hrules]⟩
    | ok rulesByDs =>
      refine .inr (.inr ⟨segments, rulesByDs, rfl, hrules, _, rfl, ?_, ?_⟩)
      · exact ((dropAllUnused_grows segments _).imp fun _ _ _ _ he => .inr he).trans
          ((placeSegments_grows now rulesByDs segments _).imp fun _ _ _ _ he => .inl he)
      · simp only [hrules]
        generalize placeSegments chrono cost now rulesByDs segments (dropAllUnused segments ⟨b, []⟩) = r
        rcases r with ⟨c, e | ⟨⟩⟩ <;> rfl

end

/-! ## Rebalancing -/

/-- Every assignment is of a size that meets a condition. -/
def AllSized (Z : UInt64 → Prop) (b : Board) : Prop := ∀ name, ∀ a ∈ b.on name, Z a.sizeBytes

/-- What is placed is of a size that meets a condition. -/
def LoadsSized (Z : UInt64 → Prop) (b : Board) (e : SegmentLoadAction) (b' : Board) : Prop :=
  ∀ name id, e = .load name id → ∃ a, b' = b.place name a ∧ Z a.sizeBytes

variable {Z : UInt64 → Prop} {cost : CostModel}

theorem allSized_of_moves {b' : Board} {e : SegmentLoadAction} (h : Moves b e b') (hload : LoadsSized Z b e b') (hb : AllSized Z b) :
    AllSized Z b' := by
  intro name' x hx
  cases h with
  | load known fits fresh tiered =>
    obtain ⟨a, hplace, ha⟩ := hload _ _ rfl
    rw [hplace, Board.on_place] at hx
    split_ifs at hx with hname
    · rcases mem_append.1 hx with hx | hx
      · exact hb _ x hx
      · rwa [mem_singleton.1 hx]
    · exact hb _ x hx
  | drop on first =>
    rw [Board.on_unplace _ _ (by simp [on])] at hx
    split_ifs at hx with hname
    · refine hb name' x ?_
      rw [hname, on, mem_append, mem_cons]
      exact (mem_append.1 hx).imp_right .inr
    · exact hb _ x hx

theorem rebalanceSegment_grows (src : ServerInfo) (st : Cycle × ℕ) {a : SegmentAssignment} (ha : Z a.sizeBytes) :
    Grows (LoadsSized Z) st.1 (rebalanceSegment cost src st a).1 := by
  unfold rebalanceSegment
  simp only
  split_ifs
  · exact .refl _
  split
  · exact .refl _
  rename_i dest destCost hcheapest
  obtain ⟨-, hfresh, live, hlive, hfits⟩ := cheapest_some hcheapest
  split_ifs
  · set placed : SegmentAssignment := { a with tier := ((st.1.board.registry.get dest).map (·.tier)).getD a.tier }
    have hload : Moves st.1.board (.load dest placed.segmentId) (st.1.board.place dest placed) :=
      .load hlive hfits hfresh (by simp [placed, hlive])
    have hone : Grows (LoadsSized Z) st.1 (st.1.load dest placed) := by
      refine ⟨_, rfl, .single ⟨hload, fun name id he => ?_⟩⟩
      cases he
      exact ⟨placed, rfl, ha⟩
    refine hone.trans ((removeAssignment_grows _ _ _).imp fun _ _ _ _ he name id he' => ?_)
    rw [he] at he'
    cases he'
  · exact .refl _

theorem Grows.allSized {c c' : Cycle} (h : Grows (LoadsSized Z) c c') (hc : AllSized Z c.board) : AllSized Z c'.board := by
  obtain ⟨hs, -, htrace⟩ := h
  have hstep : ∀ b e b', Moves b e b' ∧ LoadsSized Z b e b' → AllSized Z b → AllSized Z b' := fun _ _ _ h => allSized_of_moves h.1 h.2
  exact (htrace.inv hstep hc).1

theorem rebalanceServer_grows (st : Cycle × ℕ) (src : ServerInfo) (hst : AllSized Z st.1.board) :
    Grows (LoadsSized Z) st.1 (rebalanceServer cost st src).1 := by
  have hfold : ∀ (segs : List SegmentAssignment) (st : Cycle × ℕ), (∀ a ∈ segs, Z a.sizeBytes) →
      Grows (LoadsSized Z) st.1 (segs.foldl (rebalanceSegment cost src) st).1 := by
    intro segs
    induction segs with
    | nil => exact fun st _ => .refl st.1
    | cons a segs ih =>
      intro st hsegs
      rw [forall_mem_cons] at hsegs
      exact (rebalanceSegment_grows src st hsegs.1).trans (ih _ hsegs.2)
  unfold rebalanceServer
  split_ifs
  · exact .refl _
  · exact hfold _ st (hst src.name)

/-- A rebalance is a history of moves that keeps what all sizes meet. -/
theorem rebalance_grows (maxSegmentsToMove : ℕ) (hb : AllSized Z b) :
    Grows (LoadsSized Z) ⟨b, []⟩ (rebalance cost maxSegmentsToMove b) := by
  have hfold : ∀ (servers : List ServerInfo) (st : Cycle × ℕ), AllSized Z st.1.board →
      Grows (LoadsSized Z) st.1 (servers.foldl (rebalanceServer cost) st).1 := by
    intro servers
    induction servers with
    | nil => exact fun st _ => .refl st.1
    | cons src servers ih =>
      intro st hst
      have hone := @rebalanceServer_grows Z cost st src hst
      exact hone.trans (ih _ (hone.allSized hst))
  unfold rebalance
  split_ifs
  · exact .refl _
  · exact hfold _ _ hb

end FerroDruid.Coordinator
