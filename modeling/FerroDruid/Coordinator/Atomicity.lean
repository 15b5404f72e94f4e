import FerroDruid.Coordinator.Availability
/-!
# Actions and bookkeeping

The actions of a cycle, replayed on what the servers had, give what they have
now. A rule whose text does not parse is found when its segment is placed: the
cycle ends with the error, the actions so far are lost, and what they did to the
board stays. So an error leaves the board as it was only when there was nothing to
do before it.
-/

namespace FerroDruid.Coordinator

open Lib List

/-- The ids of a server's segments, in their order. -/
def Board.idsOn (b : Board) (name : String) : List String := (b.on name).map (·.segmentId)

/-- What an action says about the servers: an id more, or the first one less. -/
def replay (ids : String → List String) : SegmentLoadAction → String → List String
  | .load server id => Function.update ids server (ids server ++ [id])
  | .drop server id => Function.update ids server ((ids server).erase id)

theorem idsOn_of_moves {b b' : Board} {e : SegmentLoadAction} (h : Moves b e b') : b'.idsOn = replay b.idsOn e := by
  funext n
  unfold Board.idsOn
  cases h with
  | @load name server a known fits fresh tiered =>
    rw [Board.on_place, replay, Function.update_apply]
    split_ifs with hn
    · rw [map_append]
      rfl
    · rfl
  | @drop name a kept rest on first =>
    rw [Board.on_unplace _ _ (by simp [on]), replay, Function.update_apply]
    split_ifs with hn
    · have hnotin : a.segmentId ∉ kept.map (·.segmentId) := fun hmem => by
        obtain ⟨x, hx, hid⟩ := mem_map.1 hmem
        exact first x hx hid
      rw [on, map_append, map_append, map_cons, erase_append_right _ hnotin, erase_cons_head]
    · rfl

/-- The actions that are returned account for the new assignments; an error
changes nothing. -/
def Agrees (b : Board) : Board × Except (Failure DruidError) (List (SegmentLoadAction × Board)) → Prop
  | (b', .ok history) => b'.idsOn = (history.map (·.1)).foldl replay b.idsOn
  | (b', .error (.error _)) => b' = b
  | (_, .error .panicked) => True

/-! ## Nothing to do -/

/-- Every one of the servers has the segment or has no room for it. -/
def Full (b : Board) (seg : SegmentMetadataRow) (servers : List ServerInfo) : Prop :=
  ∀ server ∈ servers, b.holds server.name seg.id = true ∨ server.canHold (segmentSizeBytes seg) = false

/-- A placement asks for nothing that is not there, or for nothing that can be
done. -/
def NothingToDo (b : Board) (seg : SegmentMetadataRow) : DesiredPlacement → Prop
  | .drop => b.holders seg.id = []
  | .broadcast => Full b seg b.registry.list
  | .load tierReplicants =>
    let desired := desiredTiers tierReplicants
    if desired = [] then b.holders seg.id = []
    else
      (∀ e ∈ desired, b.countTierReplicas seg.id e.1 < e.2 → Full b seg (b.registry.list.filter fun s => s.tier = e.1)) ∧
        (allSatisfied b seg.id desired = true →
          (∀ e ∈ desired, b.countTierReplicas seg.id e.1 = e.2) ∧
            ∀ name ∈ b.holders seg.id, ∃ e ∈ desired, b.tierOf name = some e.1)

theorem cheapest_eq_none {b : Board} {candidates : List ServerInfo} {skip : String → Bool} {size : UInt64}
    {costOn : String → ServerInfo → F64} :
    cheapest b candidates skip size costOn = none ↔
      ∀ cand ∈ candidates, skip cand.name = true ∨ ∀ live, b.registry.get cand.name = some live → live.canHold size = false := by
  suffices hgen : ∀ (f : Option (String × F64) → ServerInfo → Option (String × F64)) (p : ServerInfo → Prop),
      (∀ best cand, p cand → f best cand = best) → (∀ best cand, ¬ p cand → (f best cand).isSome) →
      (∀ best cand, best.isSome → (f best cand).isSome) →
      ∀ cs : List ServerInfo, (cs.foldl f none = none ↔ ∀ cand ∈ cs, p cand) by
    refine hgen _ _ (fun best cand hp => ?_) (fun best cand hp => ?_) (fun best cand hbest => ?_) candidates
    · rcases hp with hskip | hfull
      · simp [hskip]
      · split_ifs
        · rfl
        · split
          · rfl
          · rename_i live hlive
            simp [hfull live hlive]
    · push Not at hp
      obtain ⟨hskip, live, hlive, hroom⟩ := hp
      simp only [hskip, hlive, hroom]
      split
      · contradiction
      · split
        · contradiction
        · split <;> [skip; split] <;> simp
    · obtain ⟨r, rfl⟩ := Option.isSome_iff_exists.1 hbest
      split_ifs
      · rfl
      · split
        · rfl
        · split_ifs
          · rfl
          · simp only
            split_ifs <;> rfl
  intro f p hkeep htake hsome cs
  have hfold : ∀ (cs : List ServerInfo) (best : Option (String × F64)), best.isSome → (cs.foldl f best).isSome := by
    intro cs
    induction cs with
    | nil => exact fun _ h => h
    | cons cand cs ih => exact fun best hbest => ih _ (hsome best cand hbest)
  induction cs with
  | nil => simp
  | cons cand cs ih =>
    rw [foldl_cons, forall_mem_cons]
    by_cases hp : p cand
    · rw [hkeep _ _ hp]
      exact ih.trans (and_iff_right hp).symm
    · have := hfold cs _ (htake none cand hp)
      constructor
      · intro hnone
        rw [hnone] at this
        cases this
      · exact fun h => absurd h.1 hp

section

variable {chrono : Chrono} {cost : CostModel} {seg : SegmentMetadataRow}

variable {allow : Bool} {c : Cycle}

variable {interval : Interval}

/-- A board whose servers are full, or that has what is asked for, stays. -/
theorem ensureReplicas_settled {candidates : List ServerInfo} {target : ℕ}
    (hnodup : (candidates.map (·.name)).Nodup) (hcand : ∀ cand ∈ candidates, cand ∈ c.board.registry.list)
    (hsurplus : target < (heldBy c.board candidates seg.id).length → allow = false)
    (hmissing : (heldBy c.board candidates seg.id).length < target → Full c.board seg candidates) :
    ensureReplicas cost seg interval (segmentSizeBytes seg) candidates target allow c = c := by
  rcases @ensureReplicas_cases cost seg interval (segmentSizeBytes seg) _ hnodup target allow c with
    ⟨-, -, heq⟩ | ⟨hlt, hallow, -⟩ | ⟨hle, heq⟩
  · exact heq
  · rw [hsurplus hlt] at hallow
    cases hallow
  · rw [heq]
    cases hn : target - (heldBy c.board candidates seg.id).length with
    | zero => rfl
    | succ n =>
      have hfull := hmissing (by omega)
      have hnone : pickBestServer cost c.board interval (segmentSizeBytes seg) candidates (c.board.holds · seg.id) = none := by
        rw [pickBestServer, Option.map_eq_none_iff, cheapest_eq_none]
        refine fun cand hmem => (hfull cand hmem).imp_right fun hroom live hlive => ?_
        rw [ServerRegistry.mem_list.1 (hcand cand hmem)] at hlive
        rwa [← Option.some.inj hlive]
      rw [addReplicas, hnone]

/-- A server with room gets a copy that it did not have. -/
theorem addReplicas_unsettled {candidates : List ServerInfo} {missing : ℕ} {c : Cycle} (hmissing : 0 < missing)
    (hcand : ∀ cand ∈ candidates, cand ∈ c.board.registry.list) (hfull : ¬ Full c.board seg candidates) :
    ∃ n, (∃ cand ∈ candidates, cand.name = n) ∧ c.board.copies n seg.id = 0 ∧
      0 < (addReplicas cost seg interval (segmentSizeBytes seg) candidates missing c).board.copies n seg.id := by
  obtain ⟨missing, rfl⟩ := Nat.exists_eq_add_one.2 hmissing
  unfold addReplicas
  split
  · rename_i hpick
    refine absurd (fun cand hmem => ?_) hfull
    rw [pickBestServer, Option.map_eq_none_iff, cheapest_eq_none] at hpick
    exact (hpick cand hmem).imp_right fun h => h cand (ServerRegistry.mem_list.1 (hcand cand hmem))
  · rename_i name hpick
    obtain ⟨⟨n, x⟩, hcheapest, rfl⟩ := Option.map_eq_some_iff.1 hpick
    obtain ⟨hmem, hfresh, -⟩ := cheapest_some hcheapest
    have hzero : c.board.copies n seg.id = 0 := by
      rw [← Nat.le_zero, ← not_lt, ← Board.holds_iff, hfresh]
      exact Bool.false_ne_true
    refine ⟨n, hmem, hzero, lt_of_lt_of_le ?_ (addReplicas_mono missing _ n seg.id)⟩
    rw [Cycle.load, Board.copies_place, if_pos ⟨rfl, rfl⟩]
    omega

theorem mem_list_of_tierServers {tier : String} : ∀ cand ∈ tierServers c tier, cand ∈ c.board.registry.list :=
  fun _ h => mem_of_mem_filter h

/-- What a tier is asked for in a load phase, or in a phase that trims too. -/
def TierSettled (b : Board) (seg : SegmentMetadataRow) (allow : Bool) (entry : String × ℕ) : Prop :=
  (entry.2 < b.countTierReplicas seg.id entry.1 → allow = false) ∧
    (b.countTierReplicas seg.id entry.1 < entry.2 → Full b seg (b.registry.list.filter fun s => s.tier = entry.1))

theorem length_heldBy (c : Cycle) (tier : String) :
    (heldBy c.board (tierServers c tier) seg.id).length = c.board.countTierReplicas seg.id tier := by
  rw [(heldBy_tierServers c tier seg.id).2.2, Board.countTierReplicas_eq]

variable {desired : List (String × ℕ)}

theorem ensureTiers_settled
    (h : ∀ e ∈ desired, TierSettled c.board seg allow e) : ensureTiers chrono cost seg allow desired c = c := by
  induction desired with
  | nil => rfl
  | cons entry es ih =>
    rw [forall_mem_cons] at h
    rw [ensureTiers_cons, ensureReplicas_settled (nodup_tierServers c entry.1) mem_list_of_tierServers, ih h.2]
    · rw [length_heldBy]
      exact h.1.1
    · rw [length_heldBy]
      exact h.1.2

/-- A copy on a server of a wanted tier that does not have too many. -/
structure Sound (id name : String) (entry : String × ℕ) (b : Board) : Prop where
  held : 0 < b.copies name id
  tier : b.tierOf name = some entry.1
  count : (b.tierSet id entry.1).card ≤ entry.2

/-- Such a copy stays, whatever the tiers are asked for. -/
theorem ensureReplicas_sound {entry other : String × ℕ} {name : String}
    (hone : other.1 = entry.1 → other = entry) (h : Sound seg.id name entry c.board) :
    Sound seg.id name entry
      (ensureReplicas cost seg interval (segmentSizeBytes seg) (tierServers c other.1) other.2 allow c).board := by
  obtain ⟨hheld, hset, hlen⟩ := heldBy_tierServers c other.1 seg.id
  -- servers of another tier
  have hframe : ∀ b, (∀ n, b.tierOf n = c.board.tierOf n) → other.1 ≠ entry.1 →
      (∀ n, c.board.tierOf n ≠ some other.1 → b.copies n seg.id = c.board.copies n seg.id) → Sound seg.id name entry b := by
    intro b htiers hne hcopies
    have hkeep : ∀ n, c.board.tierOf n = some entry.1 → b.copies n seg.id = c.board.copies n seg.id := fun n hn =>
      hcopies n fun heq => hne (Option.some.inj (heq.symm.trans hn))
    refine ⟨by rw [hkeep name h.tier]; exact h.held, (htiers name).trans h.tier, le_trans (Finset.card_le_card fun n hn => ?_) h.count⟩
    rw [Board.mem_tierSet, htiers] at hn
    rw [Board.mem_tierSet, ← hkeep n hn.2]
    exact hn
  rcases @ensureReplicas_cases cost seg interval (segmentSizeBytes seg) _ (nodup_tierServers c other.1) other.2 allow c with
    ⟨-, -, heq⟩ | ⟨hlt, -, names, hnames, hmem, hcount, heq⟩ | ⟨hle, heq⟩
  · rwa [heq]
  · by_cases hother : other.1 = entry.1
    · rw [hlen, hone hother] at hlt
      exact absurd h.count (not_le.2 hlt)
    · rw [heq]
      refine hframe _ (removeAssignments_grows seg.id names c).tierOf hother fun n hn => ?_
      rw [copies_removeAssignments hnames, if_neg fun hin => hn ?_, Nat.sub_zero]
      have := hmem n hin.1
      rw [← mem_toFinset, hset, Board.mem_tierSet] at this
      exact this.2
  · have htiers := (@addReplicas_grows cost seg interval (segmentSizeBytes seg) (tierServers c other.1)
      (other.2 - (heldBy c.board (tierServers c other.1) seg.id).length) c).tierOf
    rw [heq]
    by_cases hother : other.1 = entry.1
    · obtain rfl := hone hother
      refine ⟨h.held.trans_le (addReplicas_mono _ c name seg.id), (htiers name).trans h.tier, ?_⟩
      have hcard := @card_addReplicas cost seg interval (segmentSizeBytes seg) (tierServers c other.1)
        (fun n => c.board.tierOf n = some other.1) _ (other.2 - (heldBy c.board (tierServers c other.1) seg.id).length) c
      simp only [Board.tierSet, htiers] at hlen ⊢
      omega
    · refine hframe _ htiers hother fun n hn => addReplicas_of_not_candidate _ c (fun hcand => hn (mem_tierServers.1 hcand)) seg.id

theorem ensureTiers_sound {entry : String × ℕ} {allow : Bool} {name : String} {desired : List (String × ℕ)} {c : Cycle}
    (hone : ∀ other ∈ desired, other.1 = entry.1 → other = entry) (h : Sound seg.id name entry c.board) :
    Sound seg.id name entry (ensureTiers chrono cost seg allow desired c).board := by
  induction desired generalizing c with
  | nil => exact h
  | cons other es ih =>
    rw [forall_mem_cons] at hone
    rw [ensureTiers_cons]
    exact ih hone.2 (ensureReplicas_sound hone.1 h)

/-- A tier that lacks a copy which a server can take gets one, and it stays. -/
theorem ensureTiers_loads {c : Cycle} (hnodup : (desired.map (·.1)).Nodup)
    (h : ¬ ∀ e ∈ desired, TierSettled c.board seg false e) :
    ∃ n, ∃ entry ∈ desired, c.board.copies n seg.id = 0 ∧
      Sound seg.id n entry (ensureTiers chrono cost seg false desired c).board := by
  induction desired with
  | nil => exact absurd nofun h
  | cons entry es ih =>
    obtain ⟨hnotin, hnodup⟩ := nodup_cons.1 hnodup
    rw [ensureTiers_cons]
    by_cases hhead : TierSettled c.board seg false entry
    · rw [ensureReplicas_settled (nodup_tierServers c entry.1) mem_list_of_tierServers (fun _ => rfl)
        (by rw [length_heldBy]; exact hhead.2)]
      obtain ⟨n, other, hother, hzero, hsound⟩ := ih hnodup fun hes => h (forall_mem_cons.2 ⟨hhead, hes⟩)
      exact ⟨n, other, mem_cons_of_mem _ hother, hzero, hsound⟩
    · have hhead' : c.board.countTierReplicas seg.id entry.1 < entry.2 ∧ ¬ Full c.board seg (tierServers c entry.1) := by
        by_contra hcon
        exact hhead ⟨fun _ => rfl, fun hlt => by_contra fun hfull => hcon ⟨hlt, hfull⟩⟩
      obtain ⟨hlt, hfull⟩ := hhead'
      rw [← length_heldBy] at hlt
      obtain ⟨heq, hlen⟩ : ensureReplicas cost seg (segmentInterval chrono seg) (segmentSizeBytes seg) (tierServers c entry.1) entry.2
          false c = addReplicas cost seg (segmentInterval chrono seg) (segmentSizeBytes seg) (tierServers c entry.1)
            (entry.2 - (heldBy c.board (tierServers c entry.1) seg.id).length) c ∧
          (heldBy c.board (tierServers c entry.1) seg.id).length = (c.board.tierSet seg.id entry.1).card := by
        refine ⟨?_, (heldBy_tierServers c entry.1 seg.id).2.2⟩
        rcases @ensureReplicas_cases cost seg (segmentInterval chrono seg) (segmentSizeBytes seg) _ (nodup_tierServers c entry.1) entry.2
          false c with ⟨hgt, -⟩ | ⟨hgt, -⟩ | ⟨-, heq⟩
        · exact absurd hgt (not_lt.2 hlt.le)
        · exact absurd hgt (not_lt.2 hlt.le)
        · exact heq
      obtain ⟨n, hcand, hzero, hheld⟩ := @addReplicas_unsettled cost seg (segmentInterval chrono seg) _ _ c (Nat.sub_pos_of_lt hlt)
        mem_list_of_tierServers hfull
      have htiers := (@addReplicas_grows cost seg (segmentInterval chrono seg) (segmentSizeBytes seg) (tierServers c entry.1)
        (entry.2 - (heldBy c.board (tierServers c entry.1) seg.id).length) c).tierOf
      have hcard := @card_addReplicas cost seg (segmentInterval chrono seg) (segmentSizeBytes seg) (tierServers c entry.1)
        (fun n => c.board.tierOf n = some entry.1) _ (entry.2 - (heldBy c.board (tierServers c entry.1) seg.id).length) c
      rw [heq]
      refine ⟨n, entry, mem_cons_self, hzero, ensureTiers_sound (fun other hother htier => ?_) ⟨hheld, ?_, ?_⟩⟩
      · exact absurd (mem_map.2 ⟨other, hother, htier⟩) hnotin
      · exact (htiers n).trans (mem_tierServers.1 hcand)
      · simp only [Board.tierSet, htiers] at hlen ⊢
        omega

/-- Trimming satisfied tiers only takes copies, and one at least where there are
too many. -/
theorem ensureTiers_trims (hnodup : (desired.map (·.1)).Nodup) {c : Cycle}
    (hc : Satisfied seg.id desired c.board) :
    (∀ n, (ensureTiers chrono cost seg true desired c).board.copies n seg.id ≤ c.board.copies n seg.id) ∧
      ((∃ e ∈ desired, e.2 < c.board.countTierReplicas seg.id e.1) →
        ∃ n, (ensureTiers chrono cost seg true desired c).board.copies n seg.id < c.board.copies n seg.id) := by
  suffices hgen : ∀ (es : List (String × ℕ)) (c : Cycle), (∀ e ∈ es, e ∈ desired) → Satisfied seg.id desired c.board →
      (∀ n, (ensureTiers chrono cost seg true es c).board.copies n seg.id ≤ c.board.copies n seg.id) ∧
        ((∃ e ∈ es, e.2 < c.board.countTierReplicas seg.id e.1) →
          ∃ n, (ensureTiers chrono cost seg true es c).board.copies n seg.id < c.board.copies n seg.id) from
    hgen desired c (fun _ => id) hc
  intro es
  induction es with
  | nil => exact fun c _ _ => ⟨fun _ => le_rfl, fun ⟨_, he, _⟩ => nomatch he⟩
  | cons entry es ih =>
    intro c hes hc
    rw [forall_mem_cons] at hes
    obtain ⟨hsat, -⟩ := @ensureReplicas_satisfied cost seg (fun _ => True) desired hnodup entry hes.1 true (segmentInterval chrono seg)
      (segmentSizeBytes seg) c hc (fun _ _ => trivial) (fun _ _ => trivial)
    obtain ⟨hmono, hstrict⟩ := ih _ hes.2 hsat
    rw [ensureTiers_cons]
    rcases @ensureReplicas_cases cost seg (segmentInterval chrono seg) (segmentSizeBytes seg) _ (nodup_tierServers c entry.1) entry.2
      true c with ⟨-, hallow, -⟩ | ⟨hlt, -, names, hnames, hmem, hcount, heq⟩ | ⟨hle, heq⟩
    · cases hallow
    · rw [heq] at hmono ⊢
      have hcopies := fun n => copies_removeAssignments hnames c seg.id n seg.id
      refine ⟨fun n => (hmono n).trans ?_, fun _ => ?_⟩
      · rw [hcopies]
        exact Nat.sub_le _ _
      · obtain ⟨n, hn⟩ := exists_mem_of_length_pos (hcount ▸ Nat.sub_pos_of_lt hlt : 0 < names.length)
        refine ⟨n, (hmono n).trans_lt ?_⟩
        rw [hcopies, if_pos ⟨hn, rfl⟩]
        exact Nat.sub_lt (mem_heldBy.1 (hmem n hn)).2 Nat.one_pos
    · -- the count is met exactly
      have hexact : c.board.countTierReplicas seg.id entry.1 = entry.2 := by
        refine le_antisymm (length_heldBy c entry.1 ▸ hle) ?_
        rw [Board.countTierReplicas_eq]
        exact hc entry hes.1
      rw [← length_heldBy] at hexact
      rw [hexact, Nat.sub_self] at heq
      rw [heq] at hmono hstrict ⊢
      refine ⟨hmono, fun ⟨e, he, hlt⟩ => ?_⟩
      rcases mem_cons.1 he with rfl | he
      · rw [← length_heldBy, hexact] at hlt
        exact absurd hlt (lt_irrefl _)
      · exact hstrict ⟨e, he, hlt⟩

/-- Pruning takes the copies in tiers that are not wanted, and no others. -/
theorem copies_pruneOtherTiers (c : Cycle) (id : String) (wanted : List String) (n : String) :
    (c.pruneOtherTiers id wanted).board.copies n id =
      c.board.copies n id - if 0 < c.board.copies n id ∧ ¬ ∃ t ∈ wanted, c.board.tierOf n = some t then 1 else 0 := by
  unfold Cycle.pruneOtherTiers
  rw [copies_removeAssignments ((c.board.nodup_holders id).filter _)]
  have hiff : (!(c.board.registry.get n).any fun s => s.tier ∈ wanted) = true ↔ ¬ ∃ t ∈ wanted, c.board.tierOf n = some t := by
    rw [Board.tierOf]
    cases c.board.registry.get n <;> simp
  congr 1
  simp [mem_filter, Board.mem_holders, Board.holds_iff, hiff]

theorem dropSegmentEverywhere_settled {id : String} (h : c.board.holders id = []) : c.dropSegmentEverywhere id = c := by
  rw [Cycle.dropSegmentEverywhere, h]
  rfl

theorem dropSegmentEverywhere_unsettled {id : String} (h : c.board.holders id ≠ []) :
    ∃ n, (c.dropSegmentEverywhere id).board.copies n id ≠ c.board.copies n id := by
  obtain ⟨n, hn⟩ := exists_mem_of_ne_nil _ h
  have hpos := Board.holds_iff.1 (Board.mem_holders.1 hn)
  refine ⟨n, ?_⟩
  rw [Cycle.dropSegmentEverywhere, copies_removeAssignments (c.board.nodup_holders id), if_pos ⟨hn, rfl⟩]
  omega

theorem heldBy_all_lt (h : ¬ Full c.board seg c.board.registry.list) :
    (heldBy c.board c.board.registry.list seg.id).length < c.board.registry.list.length := by
  unfold Full at h
  push Not at h
  obtain ⟨server, hserver, hfree, -⟩ := h
  have hlen : (c.board.registry.list.map (·.name)).length = c.board.registry.list.length := length_map _
  rw [heldBy, ← hlen]
  exact length_filter_lt_length_iff_exists.2 ⟨server.name, mem_map.2 ⟨server, hserver, rfl⟩, hfree⟩

theorem placeSegment_settled {placement : DesiredPlacement} (h : NothingToDo c.board seg placement) :
    placeSegment chrono cost seg c placement = c := by
  cases placement with
  | drop => exact dropSegmentEverywhere_settled h
  | broadcast =>
    refine ensureReplicas_settled c.board.registry.nodup_names (fun _ => id) (fun hlt => ?_) (fun _ => h)
    have hle : (heldBy c.board c.board.registry.list seg.id).length ≤ c.board.registry.list.length := by
      exact (length_filter_le _ _).trans (length_map _).le
    omega
  | load tierReplicants =>
    unfold NothingToDo at h
    unfold placeSegment
    simp only at h ⊢
    by_cases hempty : desiredTiers tierReplicants = []
    · rw [if_pos hempty] at h ⊢
      exact dropSegmentEverywhere_settled h
    rw [if_neg hempty] at h ⊢
    obtain ⟨hload, hexact⟩ := h
    rw [ensureTiers_settled fun e he => ⟨fun _ => rfl, hload e he⟩]
    split_ifs with hall
    · obtain ⟨hcounts, hwanted⟩ := hexact hall
      rw [ensureTiers_settled fun e he => ⟨fun hlt => absurd hlt (hcounts e he ▸ lt_irrefl _), hload e he⟩]
      have hnone : (c.board.holders seg.id).filter
          (fun name => !(c.board.registry.get name).any fun s => s.tier ∈ (desiredTiers tierReplicants).map (·.1)) = [] := by
        rw [filter_eq_nil_iff]
        intro name hname
        obtain ⟨e, he, htier⟩ := hwanted name hname
        obtain ⟨server, hserver, htier⟩ := Option.map_eq_some_iff.1 htier
        have hmem : server.tier ∈ (desiredTiers tierReplicants).map (·.1) := mem_map.2 ⟨e, he, htier.symm⟩
        rw [hserver, Option.any_some, decide_eq_true hmem]
        exact Bool.false_ne_true
      rw [Cycle.pruneOtherTiers, hnone]
      rfl
    · rfl

theorem placeSegment_unsettled {c : Cycle} {placement : DesiredPlacement} (h : ¬ NothingToDo c.board seg placement) :
    ∃ n, (placeSegment chrono cost seg c placement).board.copies n seg.id ≠ c.board.copies n seg.id := by
  cases placement with
  | drop => exact dropSegmentEverywhere_unsettled h
  | broadcast =>
    have hlt := heldBy_all_lt h
    unfold placeSegment
    simp only
    rcases @ensureReplicas_cases cost seg (segmentInterval chrono seg) (segmentSizeBytes seg) c.board.registry.list
      c.board.registry.nodup_names c.board.registry.list.length true c with ⟨hgt, -⟩ | ⟨hgt, -⟩ | ⟨-, heq⟩
    · exact absurd hgt (not_lt.2 hlt.le)
    · exact absurd hgt (not_lt.2 hlt.le)
    · obtain ⟨n, -, hzero, hpos⟩ := @addReplicas_unsettled cost seg (segmentInterval chrono seg) _ _ c (Nat.sub_pos_of_lt hlt)
        (fun _ => id) h
      rw [heq]
      exact ⟨n, by omega⟩
  | load tierReplicants =>
    have hnodup := nodup_desiredTiers tierReplicants
    have htierEq : ∀ e ∈ desiredTiers tierReplicants, ∀ e' ∈ desiredTiers tierReplicants, e.1 = e'.1 → e = e' :=
      fun e he e' he' heq => inj_on_of_nodup_map hnodup he he' heq
    unfold NothingToDo at h
    unfold placeSegment
    simp only at h ⊢
    split_ifs at h ⊢ with hempty hall
    · exact dropSegmentEverywhere_unsettled h
    · by_cases hload : ∀ e ∈ desiredTiers tierReplicants, TierSettled c.board seg false e
      · -- nothing is loaded, so something is trimmed or pruned
        rw [ensureTiers_settled hload] at hall ⊢
        obtain ⟨hmono, hstrict⟩ := @ensureTiers_trims chrono cost seg _ hnodup c (allSatisfied_iff.1 hall)
        have hprune := copies_pruneOtherTiers (ensureTiers chrono cost seg true (desiredTiers tierReplicants) c) seg.id
          ((desiredTiers tierReplicants).map (·.1))
        have htiers := (@ensureTiers_grows chrono cost seg true (desiredTiers tierReplicants) c).tierOf
        by_cases hsurplus : ∃ e ∈ desiredTiers tierReplicants, e.2 < c.board.countTierReplicas seg.id e.1
        · obtain ⟨n, hn⟩ := hstrict hsurplus
          refine ⟨n, ?_⟩
          rw [hprune]
          omega
        · have hunwanted : ∃ name ∈ c.board.holders seg.id, ¬ ∃ e ∈ desiredTiers tierReplicants, c.board.tierOf name = some e.1 := by
            by_contra hcon
            push Not at hsurplus
            refine h ⟨fun e he => (hload e he).2, fun _ => ⟨fun e he => le_antisymm (hsurplus e he) ?_, ?_⟩⟩
            · rw [Board.countTierReplicas_eq]
              exact allSatisfied_iff.1 hall e he
            · exact fun name hname => by_contra fun hno => hcon ⟨name, hname, hno⟩
          obtain ⟨name, hname, hno⟩ := hunwanted
          have hpos := Board.holds_iff.1 (Board.mem_holders.1 hname)
          refine ⟨name, ?_⟩
          rw [hprune, htiers]
          have hno' : ¬ ∃ t ∈ (desiredTiers tierReplicants).map (·.1), c.board.tierOf name = some t := by
            rintro ⟨t, ht, htier⟩
            obtain ⟨e, he, rfl⟩ := mem_map.1 ht
            exact hno ⟨e, he, htier⟩
          have := hmono name
          simp only [hno', not_false_eq_true, and_true]
          split_ifs <;> omega
      · -- what is loaded is not trimmed or pruned
        obtain ⟨n, entry, hentry, hzero, hsound⟩ := @ensureTiers_loads chrono cost seg _ c hnodup hload
        have htrimmed := @ensureTiers_sound chrono cost seg entry true n (desiredTiers tierReplicants) _
          (fun other hother heq => htierEq other hother entry hentry heq) hsound
        refine ⟨n, ?_⟩
        rw [copies_pruneOtherTiers, if_neg]
        · have := htrimmed.held
          omega
        · exact fun hcon => hcon.2 ⟨entry.1, mem_map.2 ⟨entry, hentry, rfl⟩, htrimmed.tier⟩
    · have hload : ¬ ∀ e ∈ desiredTiers tierReplicants, TierSettled c.board seg false e := fun hload => by
        rw [ensureTiers_settled hload] at hall
        exact h ⟨fun e he => (hload e he).2, fun hall' => absurd hall' hall⟩
      obtain ⟨n, entry, -, hzero, hsound⟩ := @ensureTiers_loads chrono cost seg _ c hnodup hload
      have := hsound.held
      exact ⟨n, by omega⟩

end

/-! ## What is not used -/

section

variable {used : String → Bool}

theorem dropUnused_settled {name : String} {kept rest : List SegmentAssignment} {c : Cycle} (h : ∀ a ∈ rest, used a.segmentId = true) :
    c.dropUnused used name kept rest = c := by
  induction rest generalizing kept with
  | nil => rfl
  | cons a rest ih =>
    rw [forall_mem_cons] at h
    rw [Cycle.dropUnused, if_pos h.1]
    exact ih h.2

theorem on_dropUnused {name : String} {kept rest : List SegmentAssignment} {c : Cycle} (hon : c.board.on name = kept ++ rest) :
    (c.dropUnused used name kept rest).board.on name = kept ++ rest.filter fun a => used a.segmentId := by
  induction rest generalizing kept c with
  | nil => exact hon
  | cons a rest ih =>
    unfold Cycle.dropUnused
    split_ifs with hused
    · rw [ih (by simpa using hon)]
      simp [hused]
    · have hne : c.board.on name ≠ [] := by simp [hon]
      rw [ih (by rw [Cycle.drop, Board.on_unplace _ _ hne, if_pos rfl])]
      simp [hused]

/-- A drained server has no copy of what is not used. -/
theorem copies_dropUnused (c : Cycle) {name id : String} (hid : used id = false) :
    (c.dropUnused used name [] (c.board.on name)).board.copies name id = 0 := by
  unfold Board.copies
  rw [on_dropUnused (nil_append _).symm, nil_append, countP_eq_zero]
  intro a ha
  have hused := (mem_filter.1 ha).2
  simp only [decide_eq_true_eq]
  rintro rfl
  rw [hid] at hused
  cases hused

end

theorem dropAllUnused_settled {segments : List SegmentMetadataRow} {c : Cycle}
    (h : ∀ server ∈ c.board.registry.list, ∀ a ∈ c.board.on server.name, a.segmentId ∈ segments.map (·.id)) :
    dropAllUnused segments c = c := by
  unfold dropAllUnused
  generalize hnames : c.board.registry.list.map (·.name) = names
  have hall : ∀ name ∈ names, ∀ a ∈ c.board.on name, a.segmentId ∈ segments.map (·.id) := by
    rintro name hname
    obtain ⟨server, hserver, rfl⟩ := mem_map.1 (hnames ▸ hname)
    exact h server hserver
  clear hnames h
  induction names with
  | nil => rfl
  | cons name names ih =>
    rw [forall_mem_cons] at hall
    rw [foldl_cons, dropUnused_settled fun a ha => decide_eq_true (hall.1 a ha)]
    exact ih hall.2

theorem dropAllUnused_unsettled {segments : List SegmentMetadataRow} {c : Cycle} {server : ServerInfo}
    (hserver : server ∈ c.board.registry.list) {id : String} (hid : id ∉ segments.map (·.id)) :
    (dropAllUnused segments c).board.copies server.name id = 0 := by
  unfold dropAllUnused
  have hmem : server.name ∈ c.board.registry.list.map (·.name) := mem_map.2 ⟨server, hserver, rfl⟩
  generalize c.board.registry.list.map (·.name) = names at hmem
  clear hserver
  induction names generalizing c with
  | nil => cases hmem
  | cons name names ih =>
    rw [foldl_cons]
    by_cases hin : server.name ∈ names
    · exact ih hin
    · obtain rfl : server.name = name := (mem_cons.1 hmem).resolve_right hin
      have hzero := @copies_dropUnused (fun id => id ∈ segments.map (·.id)) c server.name id (decide_eq_false hid)
      refine (Grows.foldl (P := fun _ e _ => ∃ n i, e = .drop n i) (fun name _ c => ?_) _).inv
        (I := fun b => b.copies server.name id = 0) (fun b e b' hmove hP hI => ?_) hzero
      · exact (dropUnused_grows (nil_append _).symm nofun).imp fun _ _ _ _ ⟨i, _, he⟩ => ⟨name, i, he⟩
      · obtain ⟨n, i, rfl⟩ := hP
        rw [copies_drop hmove, hI, Nat.zero_sub]

/-! ## A cycle that fails -/

section

variable {chrono : Chrono} {cost : CostModel} {fromValue : Json → Except String LoadRule} {now : ℤ}
  {rulesByDs : HashMap String (List LoadRule)}

variable {pre : List SegmentMetadataRow}

/-- The segments before the one whose rule fails are placed. -/
theorem placeSegments_failed {post : List SegmentMetadataRow} {seg : SegmentMetadataRow} {e : Failure DruidError}
    (hpre : ∀ s ∈ pre, ∃ p, placementOf chrono now rulesByDs s = .ok p) (hseg : placementOf chrono now rulesByDs seg = .error e)
    (c : Cycle) : (placeSegments chrono cost now rulesByDs (pre ++ seg :: post) c).2 = .error e := by
  induction pre generalizing c with
  | nil => rw [nil_append, placeSegments, hseg]
  | cons s pre ih =>
    rw [forall_mem_cons] at hpre
    obtain ⟨p, hp⟩ := hpre.1
    rw [cons_append, placeSegments, hp]
    exact ih hpre.2 _

theorem placeSegments_error {segs : List SegmentMetadataRow} {c : Cycle} {e : Failure DruidError}
    (h : (placeSegments chrono cost now rulesByDs segs c).2 = .error e) :
    ∃ pre seg post, segs = pre ++ seg :: post ∧ (∀ s ∈ pre, ∃ p, placementOf chrono now rulesByDs s = .ok p) ∧
      placementOf chrono now rulesByDs seg = .error e := by
  induction segs generalizing c with
  | nil => cases h
  | cons s segs ih =>
    unfold placeSegments at h
    cases hp : placementOf chrono now rulesByDs s with
    | error e' =>
      rw [hp] at h
      cases h
      exact ⟨[], s, segs, rfl, by simp, hp⟩
    | ok p =>
      rw [hp] at h
      obtain ⟨pre, seg, post, rfl, hpre, hseg⟩ := ih h
      exact ⟨s :: pre, seg, post, rfl, forall_mem_cons.2 ⟨⟨p, hp⟩, hpre⟩, hseg⟩

theorem placeSegments_settled {c : Cycle}
    (hpre : ∀ s ∈ pre, ∃ p, placementOf chrono now rulesByDs s = .ok p)
    (h : ∀ s ∈ pre, ∀ p, placementOf chrono now rulesByDs s = .ok p → NothingToDo c.board s p) (rest : List SegmentMetadataRow) :
    placeSegments chrono cost now rulesByDs (pre ++ rest) c = placeSegments chrono cost now rulesByDs rest c := by
  induction pre with
  | nil => rfl
  | cons s pre ih =>
    rw [forall_mem_cons] at hpre h
    obtain ⟨p, hp⟩ := hpre.1
    rw [cons_append, placeSegments, hp]
    simp only
    rw [placeSegment_settled (h.1 p hp)]
    exact ih hpre.2 h.2

/-- What is done for a segment is not undone for the others. -/
theorem placeSegments_unsettled {rest : List SegmentMetadataRow} {c : Cycle} (hids : ((pre ++ rest).map (·.id)).Nodup)
    (hpre : ∀ s ∈ pre, ∃ p, placementOf chrono now rulesByDs s = .ok p)
    (h : ¬ ∀ s ∈ pre, ∀ p, placementOf chrono now rulesByDs s = .ok p → NothingToDo c.board s p) :
    ∃ n i, (placeSegments chrono cost now rulesByDs (pre ++ rest) c).1.board.copies n i ≠ c.board.copies n i := by
  induction pre with
  | nil => exact absurd nofun h
  | cons s pre ih =>
    rw [forall_mem_cons] at hpre h
    obtain ⟨p, hp⟩ := hpre.1
    obtain ⟨hs, hids⟩ := nodup_cons.1 hids
    rw [cons_append, placeSegments, hp]
    simp only
    by_cases hhead : NothingToDo c.board s p
    · rw [placeSegment_settled hhead]
      refine ih hids hpre.2 fun hrest => h ⟨fun p' hp' => ?_, hrest⟩
      rw [hp] at hp'
      cases hp'
      exact hhead
    · obtain ⟨n, hn⟩ := @placeSegment_unsettled chrono cost s c p hhead
      refine ⟨n, s.id, fun heq => hn (Eq.trans ?_ heq)⟩
      refine ((placeSegments_grows now rulesByDs (pre ++ rest) (placeSegment chrono cost s c p)).inv
        (I := fun b => b.copies n s.id = (placeSegment chrono cost s c p).board.copies n s.id) (fun b e b' hmove hP hI => ?_) rfl).symm
      obtain ⟨other, hother, hmoves⟩ := hP
      rw [copies_of_ne hmove fun hid => hs ?_, hI]
      exact mem_map.2 ⟨other, hother, (hid.trans (movesOf_segmentId hmoves)).symm⟩

end

/-- A rule that fails is the first thing that is done: no server has a segment
that is not used, and the segments before have what can be had. Without servers
no rule is looked at. -/
def NothingBefore (chrono : Chrono) (fromValue : Json → Except String LoadRule) (now : ℤ) (store : MetadataStore) (b : Board) : Prop :=
  ∀ segments rulesByDs pre seg post e, store.loadUsedSegments = .ok segments → store.loadRulesFor fromValue segments = .ok rulesByDs →
    segments = pre ++ seg :: post → (∀ s ∈ pre, ∃ p, placementOf chrono now rulesByDs s = .ok p) →
    placementOf chrono now rulesByDs seg = .error (.error e) →
    b.registry.list = [] ∨
      (∀ server ∈ b.registry.list, ∀ a ∈ b.on server.name, a.segmentId ∈ segments.map (·.id)) ∧
        ∀ s ∈ pre, ∀ p, placementOf chrono now rulesByDs s = .ok p → NothingToDo b s p

/-- A cycle's actions are its changes, and an error leaves no change, just when
there was nothing to do before the rule that fails. -/
theorem agrees_iff (chrono : Chrono) (cost : CostModel) (fromValue : Json → Except String LoadRule) (now : ℤ) {store : MetadataStore}
    (hkeyed : store.Keyed) (b : Board) :
    Agrees b (runBalanceRegistered chrono cost fromValue now store b) ↔ NothingBefore chrono fromValue now store b := by
  constructor
  · intro h segments rulesByDs pre seg post e hsegments hrules hsplit hpre hseg
    by_contra hcon
    rw [not_or] at hcon
    obtain ⟨hservers, hcon⟩ := hcon
    have hids := hkeyed segments hsegments
    -- the cycle ends with the error, so the board must be the same
    have hfailed := @placeSegments_failed chrono cost now rulesByDs pre post seg _ hpre hseg (dropAllUnused segments ⟨b, []⟩)
    have hsame : (placeSegments chrono cost now rulesByDs (pre ++ seg :: post) (dropAllUnused segments ⟨b, []⟩)).1.board = b := by
      unfold runBalanceRegistered at h
      rw [if_neg hservers, hsegments] at h
      simp only [hrules] at h
      rw [← hsplit] at hfailed ⊢
      generalize placeSegments chrono cost now rulesByDs segments (dropAllUnused segments ⟨b, []⟩) = r at h hfailed
      obtain ⟨c, r⟩ := r
      obtain rfl : r = .error (.error e) := hfailed
      exact h
    by_cases hused : ∀ server ∈ b.registry.list, ∀ a ∈ b.on server.name, a.segmentId ∈ segments.map (·.id)
    · rw [@dropAllUnused_settled segments ⟨b, []⟩ hused] at hsame
      obtain ⟨n, i, hn⟩ := @placeSegments_unsettled chrono cost now rulesByDs pre (seg :: post) ⟨b, []⟩ (hsplit ▸ hids) hpre
        fun hall => hcon ⟨hused, hall⟩
      exact hn (by rw [hsame])
    · push Not at hused
      obtain ⟨server, hserver, a, ha, hid⟩ := hused
      have hpos : 0 < b.copies server.name a.segmentId := countP_pos_iff.2 ⟨a, ha, decide_eq_true rfl⟩
      have hzero := @dropAllUnused_unsettled segments ⟨b, []⟩ server hserver a.segmentId hid
      have hend : (placeSegments chrono cost now rulesByDs (pre ++ seg :: post) (dropAllUnused segments ⟨b, []⟩)).1.board.copies
          server.name a.segmentId = 0 := by
        refine (placeSegments_grows now rulesByDs (pre ++ seg :: post) _).inv
          (I := fun b => b.copies server.name a.segmentId = 0) (fun b e b' hmove hP hI => ?_) hzero
        obtain ⟨other, hother, hmoves⟩ := hP
        rw [copies_of_ne hmove fun heq => hid ?_, hI]
        exact mem_map.2 ⟨other, hsplit ▸ hother, (heq.trans (movesOf_segmentId hmoves)).symm⟩
      rw [hsame] at hend
      omega
  · intro h
    rcases @runBalanceRegistered_grows chrono cost fromValue now store b with ⟨e, heq⟩ | heq |
      ⟨segments, rulesByDs, hsegments, hrules, c, hc, hgrows, heq⟩
    · rw [heq]
      cases e with
      | error e => rfl
      | panicked => trivial
    · rw [heq]
      rfl
    · rw [heq]
      cases hresult : (placeSegments chrono cost now rulesByDs segments (dropAllUnused segments ⟨b, []⟩)).2 with
      | ok u =>
        obtain ⟨hs, hhist, htrace⟩ := hgrows
        rw [hhist]
        exact htrace.foldl_obs fun _ _ _ hmove => idsOn_of_moves hmove.1
      | error failure =>
        cases failure with
        | panicked => trivial
        | error e =>
          obtain ⟨pre, seg, post, hsplit, hpre, hseg⟩ := placeSegments_error hresult
          rcases h segments rulesByDs pre seg post e hsegments hrules hsplit hpre hseg with hservers | ⟨hused, hall⟩
          · unfold runBalanceRegistered at heq
            rw [if_pos hservers, hresult] at heq
            cases heq
          · have hstay : c = ⟨b, []⟩ := by
              rw [hc, @dropAllUnused_settled segments ⟨b, []⟩ hused, hsplit, placeSegments_settled hpre hall, placeSegments, hseg]
            rw [hstay]
            rfl

/-! ## A period that does not parse -/

/-- Two data sources; the rule of the second one does not parse. -/
def twoSources : MetadataStore where
  getAllDataSources := .ok ["logs", "wiki"]
  getUsedSegments ds := .ok [⟨ds ++ "_0", ds, "", "", .null⟩]
  getRules ds := .ok [.bool (ds = "wiki")]

def badPeriod : Json → Except String LoadRule
  | .bool true => .ok (.loadByPeriod "30D" none ∅)
  | _ => .ok (.loadForever ∅)

/-- The first segment is assigned, and nobody is told to load it. -/
theorem badPeriod_not_agrees :
    ¬ Agrees (registerServer (hist1 0) .empty)
      (runBalanceRegistered noChrono flatCost badPeriod 0 twoSources (registerServer (hist1 0) .empty)) := by
  intro h
  have hassigned : ((runBalanceRegistered noChrono flatCost badPeriod 0 twoSources (registerServer (hist1 0) .empty)).1.holders
      "logs_0").length = 1 := by decide +kernel
  have hfailed : (runBalanceRegistered noChrono flatCost badPeriod 0 twoSources (registerServer (hist1 0) .empty)).2 =
      .error (.error (.config "rule evaluation failed: invalid load rule: period must start with 'P': 30D")) := by rfl
  generalize runBalanceRegistered noChrono flatCost badPeriod 0 twoSources (registerServer (hist1 0) .empty) = r at h hassigned hfailed
  obtain ⟨b, r⟩ := r
  obtain rfl : r = _ := hfailed
  obtain rfl : b = registerServer (hist1 0) .empty := h
  exact absurd hassigned (by decide +kernel)

theorem agrees_iff_badPeriod :
    Agrees (registerServer (hist1 0) .empty)
      (runBalanceRegistered noChrono flatCost (fun _ => .ok (.loadByPeriod "30D" none ∅)) 0 (oneSegment 100 (by decide))
        (registerServer (hist1 0) .empty)) := by
  refine (agrees_iff noChrono flatCost (fun _ => .ok (.loadByPeriod "30D" none ∅)) 0
    (fun segments hsegments => by cases hsegments; decide) (registerServer (hist1 0) .empty)).2 ?_
  intro segments rulesByDs pre seg post e hsegments hrules hsplit hpre hseg
  refine .inr ⟨fun _ _ _ ha => (not_mem_nil ha).elim, ?_⟩
  -- the first segment's rule fails
  cases hsegments
  cases pre with
  | nil => exact nofun
  | cons s pre =>
    obtain ⟨-, htail⟩ := List.cons.inj hsplit
    simp at htail

end FerroDruid.Coordinator
