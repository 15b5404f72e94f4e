import FerroDruid.Coordinator.Moves
/-!
# Who holds a segment

How many times a segment is assigned to a server, and how the moves change it:
a load adds one, a drop takes one, and no other segment or server is touched.
Tiers stay as they are.
-/

namespace FerroDruid.Coordinator

open Lib List

namespace Board

/-- How often a segment is assigned to a server. -/
def copies (b : Board) (name id : String) : ℕ := (b.on name).countP fun a => a.segmentId = id

def tierOf (b : Board) (name : String) : Option String := (b.registry.get name).map (·.tier)

variable {b : Board} {name id : String}

theorem holds_iff : b.holds name id = true ↔ 0 < b.copies name id := by
  simp [holds, copies, countP_pos_iff]

/-- The servers that hold a segment. -/
def holderSet (b : Board) (id : String) : Finset String := (b.holders id).toFinset

@[simp] theorem mem_holderSet : name ∈ b.holderSet id ↔ 0 < b.copies name id := by
  rw [holderSet, mem_toFinset, mem_holders, holds_iff]

theorem nodup_holders (b : Board) (id : String) : (b.holders id).Nodup := b.assignments.nodupKeys.filter _

theorem card_holderSet (b : Board) (id : String) : (b.holderSet id).card = (b.holders id).length :=
  toFinset_card_of_nodup (b.nodup_holders id)

/-- The holders in a tier. -/
def tierSet (b : Board) (id tier : String) : Finset String := (b.holderSet id).filter fun name => b.tierOf name = some tier

theorem mem_tierSet {tier : String} :
    name ∈ b.tierSet id tier ↔ 0 < b.copies name id ∧ b.tierOf name = some tier := by
  rw [tierSet, Finset.mem_filter, mem_holderSet]

theorem countTierReplicas_eq (b : Board) (id tier : String) : b.countTierReplicas id tier = (b.tierSet id tier).card := by
  rw [countTierReplicas, countP_eq_length_filter, ← toFinset_card_of_nodup ((b.nodup_holders id).filter _), tierSet,
    holderSet, toFinset_filter]
  congr 1
  ext name
  simp [tierOf]

theorem copies_place (b : Board) (name : String) (a : SegmentAssignment) (n i : String) :
    (b.place name a).copies n i = b.copies n i + if n = name ∧ i = a.segmentId then 1 else 0 := by
  unfold copies
  rw [on_place]
  by_cases hn : n = name
  · rw [if_pos hn, hn, countP_append, countP_singleton]
    simp [eq_comm]
  · rw [if_neg hn, if_neg fun h => hn h.1, Nat.add_zero]

theorem copies_unplace {kept rest : List SegmentAssignment} {a : SegmentAssignment}
    (hon : b.on name = kept ++ a :: rest) (n i : String) :
    (b.unplace name (kept ++ rest) a).copies n i = b.copies n i - if n = name ∧ i = a.segmentId then 1 else 0 := by
  unfold copies
  rw [on_unplace _ _ (by simp [hon])]
  by_cases hn : n = name
  · rw [if_pos hn, hn, hon, countP_append, countP_append, countP_cons]
    by_cases hi : a.segmentId = i
    · simp [hi]
    · simp [hi, Ne.symm hi]
  · rw [if_neg hn, if_neg fun h => hn h.1, Nat.sub_zero]

end Board

/-! ## Moves -/

variable {b b' : Board} {name id : String}

theorem copies_load (h : Moves b (.load name id) b') (n i : String) :
    b'.copies n i = b.copies n i + if n = name ∧ i = id then 1 else 0 := by
  cases h with
  | load known fits fresh tiered => exact b.copies_place name _ n i

theorem copies_drop (h : Moves b (.drop name id) b') (n i : String) :
    b'.copies n i = b.copies n i - if n = name ∧ i = id then 1 else 0 := by
  cases h with
  | drop on first => exact Board.copies_unplace on n i

variable {e : SegmentLoadAction}

theorem tierOf_of_moves (h : Moves b e b') (n : String) : b'.tierOf n = b.tierOf n := by
  unfold Board.tierOf
  cases h with
  | @load name server a known fits fresh tiered =>
    rw [Board.place, ServerRegistry.addSize, ServerRegistry.get_alter]
    split_ifs with hn
    · rw [hn, Option.map_map]
      rfl
    · rfl
  | @drop name a kept rest on first =>
    rw [Board.unplace, ServerRegistry.subSize, ServerRegistry.get_alter]
    split_ifs with hn
    · rw [hn, Option.map_map]
      rfl
    · rfl

section

variable {P : Board → SegmentLoadAction → Board → Prop} {c c' : Cycle}

/-- What the moves keep holds afterwards. -/
theorem Grows.inv {I : Board → Prop} (h : Grows P c c') (hstep : ∀ b e b', Moves b e b' → P b e b' → I b → I b')
    (hc : I c.board) : I c'.board := by
  obtain ⟨hs, -, htrace⟩ := h
  exact (htrace.inv (fun b e b' hmove => hstep b e b' hmove.1 hmove.2) hc).1

/-- What the moves keep holds after every new action. -/
theorem Grows.inv_history {I J : Board → Prop} (h : Grows P c c') (hstep : ∀ b e b', Moves b e b' → P b e b' → I b → I b')
    (hc : I c.board) (himp : ∀ b, I b → J b) (hhist : ∀ e ∈ c.history, J e.2) : ∀ e ∈ c'.history, J e.2 := by
  obtain ⟨hs, hh, htrace⟩ := h
  rw [hh, forall_mem_append]
  exact ⟨hhist, fun e he => himp _ ((htrace.inv (fun b e b' hmove => hstep b e b' hmove.1 hmove.2) hc).2 e he)⟩

theorem Grows.tierOf (h : Grows P c c') (n : String) : c'.board.tierOf n = c.board.tierOf n :=
  h.inv (I := fun b => b.tierOf n = c.board.tierOf n) (fun _ _ _ hmove _ hI => (tierOf_of_moves hmove n).trans hI) rfl

end

/-- The action is about a segment. -/
def SegmentLoadAction.segmentId : SegmentLoadAction → String
  | load _ id => id
  | drop _ id => id

/-- Another segment's copies stay as they are. -/
theorem copies_of_ne (h : Moves b e b') {i : String} (hi : i ≠ e.segmentId) (n : String) :
    b'.copies n i = b.copies n i := by
  cases e with
  | load name id => rw [copies_load h, if_neg fun h => hi h.2, Nat.add_zero]
  | drop name id => rw [copies_drop h, if_neg fun h => hi h.2, Nat.sub_zero]

theorem movesOf_segmentId {seg : SegmentMetadataRow} (h : MovesOf seg b e b') :
    e.segmentId = seg.id := by
  rcases h with ⟨name, a, rfl, -⟩ | ⟨name, rfl⟩ <;> rfl

/-- One copy goes, if there is one. -/
theorem copies_removeAssignment (c : Cycle) (server id n i : String) :
    (c.removeAssignment server id).board.copies n i = c.board.copies n i - if n = server ∧ i = id then 1 else 0 := by
  unfold Cycle.removeAssignment
  cases hfind : (c.board.on server).find? (·.segmentId = id) with
  | none =>
    have hnone : c.board.copies server id = 0 := countP_eq_zero.2 fun a ha => by simpa using find?_eq_none.1 hfind a ha
    split_ifs with h
    · rw [h.1, h.2, hnone]
    · rfl
  | some a =>
    obtain ⟨ha, kept, rest, hon, hfirst⟩ := find?_eq_some_iff_append.1 hfind
    obtain rfl := of_decide_eq_true ha
    have herase : (c.board.on server).eraseP (·.segmentId = a.segmentId) = kept ++ rest := by
      rw [hon, eraseP_append_right _ (fun x hx => by simpa using hfirst x hx), eraseP_cons_of_pos (by simp)]
    simp only [herase]
    exact Board.copies_unplace hon n i

/-- One copy goes from each of the servers. -/
theorem copies_removeAssignments {names : List String} (hnodup : names.Nodup) (c : Cycle) (id n i : String) :
    (names.foldl (fun c name => c.removeAssignment name id) c).board.copies n i =
      c.board.copies n i - if n ∈ names ∧ i = id then 1 else 0 := by
  induction names generalizing c with
  | nil => simp
  | cons name names ih =>
    obtain ⟨hname, hnames⟩ := nodup_cons.1 hnodup
    rw [foldl_cons, ih hnames, copies_removeAssignment]
    by_cases hi : i = id
    · by_cases hn : n = name
      · subst hn
        simp [hi, hname]
      · simp [hi, hn]
    · simp [hi]

/-! ## Replicas of a segment -/

/-- The candidates that hold a segment. -/
def heldBy (b : Board) (candidates : List ServerInfo) (id : String) : List String :=
  (candidates.map (·.name)).filter (b.holds · id)

theorem mem_heldBy {candidates : List ServerInfo} :
    name ∈ heldBy b candidates id ↔ (∃ cand ∈ candidates, cand.name = name) ∧ 0 < b.copies name id := by
  rw [heldBy, mem_filter, mem_map, Board.holds_iff]

section

variable {cost : CostModel} {seg : SegmentMetadataRow} {interval : Interval} {size : UInt64} {candidates : List ServerInfo}

/-- What `ensure_replicas` does, in three cases. -/
theorem ensureReplicas_cases (hnodup : (candidates.map (·.name)).Nodup) (target : ℕ) (allow : Bool) (c : Cycle) :
    let held := heldBy c.board candidates seg.id
    let result := ensureReplicas cost seg interval size candidates target allow c
    (target < held.length ∧ allow = false ∧ result = c) ∨
      (target < held.length ∧ allow = true ∧ ∃ names : List String, names.Nodup ∧ (∀ n ∈ names, n ∈ held) ∧ names.length = held.length - target ∧
        result = names.foldl (fun c name => c.removeAssignment name seg.id) c) ∨
      (held.length ≤ target ∧ result = addReplicas cost seg interval size candidates (target - held.length) c) := by
  intro held result
  have hresult : result = ensureReplicas cost seg interval size candidates target allow c := rfl
  unfold ensureReplicas at hresult
  simp only at hresult
  split_ifs at hresult with hsurplus hallow
  · exact .inl ⟨hsurplus, by simpa using hallow, hresult⟩
  · refine .inr (.inl ⟨hsurplus, by simpa using hallow, _, ?_, fun n hn => ?_, ?_, hresult⟩)
    · exact ((perm_insertionSort _ _).nodup_iff.2 (hnodup.filter _)).sublist (take_sublist _ _)
    · exact (mem_insertionSort _).1 (mem_of_mem_take hn)
    · rw [length_take, length_insertionSort]
      exact min_eq_left (Nat.sub_le _ _)
  · exact .inr (.inr ⟨not_lt.1 hsurplus, hresult⟩)

/-- Loads only add copies. -/
theorem addReplicas_mono (missing : ℕ) (c : Cycle) (n i : String) :
    c.board.copies n i ≤ (addReplicas cost seg interval size candidates missing c).board.copies n i := by
  refine (addReplicas_grows seg interval size candidates missing c).inv (I := fun b => c.board.copies n i ≤ b.copies n i)
    (fun b e b' hmove hP hI => ?_) le_rfl
  obtain ⟨name, a, -, rfl, -⟩ := hP
  rw [copies_load hmove]
  omega

/-- A server that gets a copy is a candidate. -/
theorem addReplicas_of_not_candidate (missing : ℕ) (c : Cycle) {n : String} (hn : ¬ ∃ cand ∈ candidates, cand.name = n) (i : String) :
    (addReplicas cost seg interval size candidates missing c).board.copies n i = c.board.copies n i := by
  refine (addReplicas_grows seg interval size candidates missing c).inv (I := fun b => b.copies n i = c.board.copies n i)
    (fun b e b' hmove hP hI => ?_) rfl
  obtain ⟨name, a, hcand, rfl, -⟩ := hP
  have hne : ¬ (n = name ∧ i = seg.id) := fun h => hn (h.1 ▸ hcand)
  rw [copies_load hmove, if_neg hne, hI]
  rfl

/-- No more copies are added than are missing. -/
theorem card_addReplicas (p : String → Prop) [DecidablePred p] (missing : ℕ) (c : Cycle) :
    (((addReplicas cost seg interval size candidates missing c).board.holderSet seg.id).filter p).card ≤
      ((c.board.holderSet seg.id).filter p).card + missing := by
  induction missing generalizing c with
  | zero => exact le_rfl
  | succ missing ih =>
    unfold addReplicas
    split
    · omega
    · rename_i name _
      refine (ih _).trans ?_
      have hsub : ((c.load name ⟨seg.id, seg.dataSource, interval,
          ((c.board.registry.get name).map (·.tier)).getD "_default_tier", size⟩).board.holderSet seg.id).filter p ⊆
          insert name ((c.board.holderSet seg.id).filter p) := by
        intro n hn
        rw [Finset.mem_filter, Board.mem_holderSet, Cycle.load, Board.copies_place] at hn
        rw [Finset.mem_insert, Finset.mem_filter, Board.mem_holderSet]
        by_cases hname : n = name
        · exact .inl hname
        · rw [if_neg fun h => hname h.1] at hn
          exact .inr hn
      have := (Finset.card_le_card hsub).trans (Finset.card_insert_le _ _)
      omega

end

end FerroDruid.Coordinator
