import FerroDruid.Sketches.ThetaDecode
/-!
# Unions in any order

What a union of decoded sketches retains is a sample of their hashes, and samples
within one budget are the same. The empty sketch of a row without a value has no say
in the bound, but it brings a budget of 4096: a union that has one on its way keeps
more than the nominal size of smaller sketches.
-/

namespace FerroDruid.Sketches

open Lib List

namespace ThetaSketch

variable {n k : ℕ} {seed : UInt16} {s l r : ThetaSketch} {L M : List ThetaSketch}

theorem le_maxHash (a : UInt64) : a ≤ maxHash := by
  rw [UInt64.le_iff_toNat_le]
  have := a.toNat_lt
  have : maxHash.toNat = 2 ^ 64 - 1 := rfl
  omega

/-! ## Trimming -/

theorem trimLoop_spec {u : Finset UInt64} {c : UInt64} (hs : IsSample n u c s.hashes s.thetaBound) (hn : n ≤ s.maxSize) (turns : ℕ)
    (hturns : s.hashes.card ≤ s.maxSize + turns) :
    IsSample n u c (trimLoop turns s).hashes (trimLoop turns s).thetaBound ∧ (trimLoop turns s).hashes.card ≤ s.maxSize := by
  induction turns generalizing s with
  | zero => exact ⟨hs, hturns⟩
  | succ turns ih =>
    unfold trimLoop
    split_ifs with hlarge
    · have hnonempty := Finset.card_pos.1 (Nat.zero_lt_of_lt hlarge)
      refine ih (s := { s with
        hashes := s.hashes.erase (s.hashes.max' hnonempty), theta := normalise (s.hashes.max' hnonempty),
        thetaBound := s.hashes.max' hnonempty }) (hs.erase_max hnonempty (hn.trans_lt hlarge)) hn ?_
      dsimp only
      rw [Finset.card_erase_of_mem (s.hashes.max'_mem hnonempty)]
      omega
    · exact ⟨hs, not_lt.1 hlarge⟩

theorem trimLoop_fields (turns : ℕ) : (trimLoop turns s).maxSize = s.maxSize ∧ (trimLoop turns s).druidOrigin = s.druidOrigin ∧
    (trimLoop turns s).druidSeedHash = s.druidSeedHash ∧ (trimLoop turns s).hashes ⊆ s.hashes := by
  induction turns generalizing s with
  | zero => exact ⟨rfl, rfl, rfl, subset_rfl⟩
  | succ turns ih =>
    unfold trimLoop
    split_ifs
    · obtain ⟨hsize, horigin, hseed, hsub⟩ := ih (s := { s with
        hashes := s.hashes.erase (s.hashes.max' _), theta := normalise (s.hashes.max' _), thetaBound := s.hashes.max' _ })
      exact ⟨hsize, horigin, hseed, hsub.trans (Finset.erase_subset _ _)⟩
    · exact ⟨rfl, rfl, rfl, subset_rfl⟩

/-! ## All operands -/

/-- The hashes of all operands. -/
def allHashes (L : List ThetaSketch) : Finset UInt64 := L.foldr (fun s u => s.hashes ∪ u) ∅

/-- The least bound of an operand that is not empty. -/
def leastBound (L : List ThetaSketch) : UInt64 := L.foldr (fun s b => if s.hashes = ∅ then b else min s.thetaBound b) maxHash

theorem allHashes_append : allHashes (L ++ M) = allHashes L ∪ allHashes M := by
  induction L with
  | nil => exact (Finset.empty_union _).symm
  | cons s L ih =>
    unfold allHashes at *
    rw [cons_append, foldr_cons, foldr_cons, ih, Finset.union_assoc]

theorem leastBound_append : leastBound (L ++ M) = min (leastBound L) (leastBound M) := by
  induction L with
  | nil => exact (min_eq_right (le_maxHash _)).symm
  | cons s L ih =>
    unfold leastBound at *
    rw [cons_append, foldr_cons, foldr_cons, ih]
    split_ifs
    · rfl
    · rw [min_assoc]

theorem allHashes_perm (h : L.Perm M) : allHashes L = allHashes M :=
  h.foldr_eq' (fun s _ t _ u => Finset.union_left_comm t.hashes s.hashes u) ∅

theorem leastBound_perm (h : L.Perm M) : leastBound L = leastBound M :=
  h.foldr_eq' (fun s _ t _ b => by split_ifs <;> first | rfl | exact min_left_comm _ _ _) maxHash

theorem leastBound_of_empty (h : allHashes L = ∅) : leastBound L = maxHash := by
  induction L with
  | nil => rfl
  | cons s L ih =>
    obtain ⟨hs, hL⟩ := Finset.union_eq_empty.1 h
    unfold leastBound
    rw [foldr_cons, if_pos hs]
    exact ih hL

/-- The operand with the least bound has hashes below it. -/
theorem survivors_nonempty (hL : ∀ s ∈ L, ∀ h ∈ s.hashes, h < s.thetaBound) (hne : (allHashes L).Nonempty) :
    ((allHashes L).filter (· < leastBound L)).Nonempty := by
  induction L with
  | nil => exact absurd hne Finset.not_nonempty_empty
  | cons s L ih =>
    rw [forall_mem_cons] at hL
    have hall : allHashes (s :: L) = s.hashes ∪ allHashes L := rfl
    have hbound : leastBound (s :: L) = if s.hashes = ∅ then leastBound L else min s.thetaBound (leastBound L) := rfl
    rw [hall, hbound]
    by_cases hs : s.hashes = ∅
    · rw [if_pos hs, hs, Finset.empty_union]
      rw [hall, hs, Finset.empty_union] at hne
      exact ih hL.2 hne
    · rw [if_neg hs]
      have hown : s.thetaBound ≤ leastBound L →
          ((s.hashes ∪ allHashes L).filter (· < min s.thetaBound (leastBound L))).Nonempty := fun hle => by
        obtain ⟨x, hx⟩ := Finset.nonempty_iff_ne_empty.2 hs
        rw [min_eq_left hle]
        exact ⟨x, Finset.mem_filter.2 ⟨Finset.mem_union_left _ hx, hL.1 x hx⟩⟩
      rcases Finset.eq_empty_or_nonempty (allHashes L) with hempty | hrest
      · exact hown (leastBound_of_empty hempty ▸ le_maxHash _)
      · rcases le_total s.thetaBound (leastBound L) with hle | hle
        · exact hown hle
        · obtain ⟨x, hx⟩ := ih hL.2 hrest
          rw [Finset.mem_filter] at hx
          rw [min_eq_right hle]
          exact ⟨x, Finset.mem_filter.2 ⟨Finset.mem_union_right _ hx.1, hx.2⟩⟩

/-! ## One union -/

/-- What a union of some operands leaves, with `n` at most every budget. -/
structure Summary (n : ℕ) (seed : UInt16) (L : List ThetaSketch) (s : ThetaSketch) : Prop where
  origin : s.druidOrigin = true
  seeds : ∀ x ∈ s.druidSeedHash, x = seed
  card : s.hashes.card ≤ s.maxSize
  empty : allHashes L = ∅ → s.hashes = ∅
  nonempty : (allHashes L).Nonempty → s.hashes.Nonempty
  sample : (allHashes L).Nonempty → IsSample n (allHashes L) (leastBound L) s.hashes s.thetaBound

theorem Operand.summary (hs : Operand seed s) : Summary n seed [s] s := by
  have hall : allHashes [s] = s.hashes := Finset.union_empty _
  refine ⟨hs.origin, hs.seeds, hs.card, fun h => hall ▸ h, fun h => hall ▸ h, fun h => ?_⟩
  have hbound : leastBound [s] = s.thetaBound := by
    unfold leastBound
    rw [foldr_cons, foldr_nil, if_neg (by rw [← hall]; exact h.ne_empty), min_eq_left (le_maxHash _)]
  rw [hall, hbound]
  exact IsSample.self hs.below

/-- Sketches of one space and seed agree on both. -/
theorem resolvedIdentity_eq (hl : l.druidOrigin = true) (hr : r.druidOrigin = true) (hlseed : ∀ x ∈ l.druidSeedHash, x = seed)
    (hrseed : ∀ x ∈ r.druidSeedHash, x = seed) (op : String) :
    ∃ seedHash, (∀ x ∈ seedHash, x = seed) ∧ l.resolvedIdentity r op = .ok (true, seedHash) := by
  have hseeds : ∃ seedHash, (∀ x ∈ seedHash, x = seed) ∧ l.resolvedSeed r op = .ok seedHash := by
    have hor : ∀ x ∈ l.druidSeedHash.or r.druidSeedHash, x = seed := fun x hx => by
      rcases Option.or_eq_some_iff.1 hx with hx | ⟨-, hx⟩
      · exact hlseed x hx
      · exact hrseed x hx
    unfold resolvedSeed
    split_ifs
    · exact ⟨_, hrseed, rfl⟩
    · exact ⟨_, hor, rfl⟩
    · split
      · rename_i a b ha hb
        obtain rfl := hlseed a ha
        obtain rfl := hrseed b hb
        rw [if_neg (not_not.2 rfl)]
        exact ⟨_, fun x hx => by simpa using hx.symm, rfl⟩
      · exact ⟨_, hor, rfl⟩
  obtain ⟨seedHash, hseed, hresolved⟩ := hseeds
  refine ⟨seedHash, hseed, ?_⟩
  unfold resolvedIdentity resolvedOrigin
  rw [if_pos (hl.trans hr.symm), hresolved, hl]
  rfl

/-- Sketches of one space and seed have a union. -/
theorem union_eq (hl : l.druidOrigin = true) (hr : r.druidOrigin = true) (hlseed : ∀ x ∈ l.druidSeedHash, x = seed)
    (hrseed : ∀ x ∈ r.druidSeedHash, x = seed) :
    ∃ seedHash, (∀ x ∈ seedHash, x = seed) ∧ l.union r = .ok (trim ⟨(l.resolvedThreshold r).1, (l.resolvedThreshold r).2, max l.maxSize r.maxSize,
      (l.hashes ∪ r.hashes).filter (· < (l.resolvedThreshold r).2), true, seedHash⟩) := by
  obtain ⟨seedHash, hseed, hidentity⟩ := resolvedIdentity_eq hl hr hlseed hrseed "union"
  refine ⟨seedHash, hseed, ?_⟩
  unfold union
  simp only [hidentity, ok_bind, belowThreshold, if_true, decide_eq_true_eq]

/-- The union of two summaries, before it is trimmed. -/
theorem Summary.untrimmed (hl : Summary n seed L l) (hr : Summary n seed M r) (hne : (allHashes (L ++ M)).Nonempty) :
    IsSample n (allHashes (L ++ M)) (leastBound (L ++ M)) ((l.hashes ∪ r.hashes).filter (· < (l.resolvedThreshold r).2))
      (l.resolvedThreshold r).2 := by
  have hkept : ∀ {u : Finset UInt64} {c b : UInt64} {x : Finset UInt64}, IsSample n u c x b → x.filter (· < b) = x := fun h =>
    Finset.filter_true_of_mem fun _ hx => (h.mem_iff.1 hx).2
  rw [allHashes_append, leastBound_append]
  unfold resolvedThreshold
  rcases Finset.eq_empty_or_nonempty (allHashes L) with hL | hL <;> rcases Finset.eq_empty_or_nonempty (allHashes M) with hM | hM
  · rw [allHashes_append, hL, hM] at hne
    exact absurd hne Finset.not_nonempty_empty
  · -- the left side has no say
    have hsample := hr.sample hM
    rw [if_pos (hl.empty hL), if_neg (hr.nonempty hM).ne_empty, hl.empty hL, hL, leastBound_of_empty hL, Finset.empty_union, Finset.empty_union,
      min_eq_right (le_maxHash _)]
    rwa [hkept hsample]
  · have hsample := hl.sample hL
    rw [if_neg (hl.nonempty hL).ne_empty, if_pos (hr.empty hM), hr.empty hM, hM, leastBound_of_empty hM, Finset.union_empty, Finset.union_empty,
      min_eq_left (le_maxHash _)]
    rwa [hkept hsample]
  · rw [if_neg (hl.nonempty hL).ne_empty, if_neg (hr.nonempty hM).ne_empty]
    exact (hl.sample hL).union (hr.sample hM)

theorem Summary.union (hl : Summary n seed L l) (hr : Summary n seed M r) (hpos : 0 < n)
    (hn : (allHashes (L ++ M)).Nonempty → n ≤ max l.maxSize r.maxSize) (hbelow : ∀ s ∈ L ++ M, ∀ h ∈ s.hashes, h < s.thetaBound) :
    ∃ s, l.union r = .ok s ∧ s.maxSize = max l.maxSize r.maxSize ∧ Summary n seed (L ++ M) s := by
  obtain ⟨seedHash, hseed, heq⟩ := union_eq hl.origin hr.origin hl.seeds hr.seeds
  refine ⟨_, heq, ?_⟩
  generalize hresult : (⟨(l.resolvedThreshold r).1, (l.resolvedThreshold r).2, max l.maxSize r.maxSize,
    (l.hashes ∪ r.hashes).filter (· < (l.resolvedThreshold r).2), true, seedHash⟩ : ThetaSketch) = result
  obtain ⟨hsize, horigin, hseedHash, hsub⟩ := @trimLoop_fields result result.hashes.card
  have hspec : (allHashes (L ++ M)).Nonempty → IsSample n (allHashes (L ++ M)) (leastBound (L ++ M)) (trim result).hashes (trim result).thetaBound ∧
      (trim result).hashes.card ≤ result.maxSize := fun hne => by
    refine trimLoop_spec ?_ ?_ _ (Nat.le_add_left _ _)
    · rw [← hresult]
      exact hl.untrimmed hr hne
    · rw [← hresult]
      exact hn hne
  have hempty : allHashes (L ++ M) = ∅ → (trim result).hashes = ∅ := fun h => by
    rw [allHashes_append, Finset.union_eq_empty] at h
    refine Finset.subset_empty.1 (hsub.trans ?_)
    rw [← hresult]
    rw [hl.empty h.1, hr.empty h.2]
    rfl
  refine ⟨hsize.trans (by rw [← hresult]), ⟨horigin.trans (by rw [← hresult]), ?_, ?_, hempty, fun hne => ?_, fun hne => (hspec hne).1⟩⟩
  · intro x hx
    rw [trim, hseedHash, ← hresult] at hx
    exact hseed x hx
  · rw [trim, hsize, ← trim]
    rcases Finset.eq_empty_or_nonempty (allHashes (L ++ M)) with h | hne
    · rw [hempty h]
      exact Nat.zero_le _
    · exact (hspec hne).2
  · exact (hspec hne).1.nonempty hpos (survivors_nonempty hbelow hne)

/-! ## Any order and grouping -/

/-- Calls of `union`, one inside the other. -/
inductive Grouping where
  | operand (s : ThetaSketch)
  | union (left right : Grouping)

namespace Grouping

def operands : Grouping → List ThetaSketch
  | operand s => [s]
  | union left right => left.operands ++ right.operands

def result : Grouping → Except SketchError ThetaSketch
  | operand s => .ok s
  | union left right => do
    let l ← left.result
    let r ← right.result
    l.union r

theorem length_operands_pos (t : Grouping) : 0 < t.operands.length := by
  induction t with
  | operand s => exact Nat.one_pos
  | union left right ihl _ =>
    rw [operands, length_append]
    omega

/-- Budgets from `n`, where it counts, to `m` are those of every union too. -/
theorem result_summary {m : ℕ} (hpos : 0 < n) (t : Grouping)
    (ht : ∀ s ∈ t.operands, Operand seed s ∧ (s.hashes.Nonempty → n ≤ s.maxSize) ∧ s.maxSize ≤ m) :
    ∃ s, t.result = .ok s ∧ Summary n seed t.operands s ∧ ((allHashes t.operands).Nonempty → n ≤ s.maxSize) ∧ s.maxSize ≤ m := by
  induction t with
  | operand s =>
    obtain ⟨hs, hn, hm⟩ := ht s (mem_singleton_self s)
    exact ⟨s, rfl, hs.summary, fun h => hn (Finset.union_empty s.hashes ▸ h), hm⟩
  | union left right ihl ihr =>
    rw [operands, forall_mem_append] at ht
    obtain ⟨l, hleft, hl, hln, hlm⟩ := ihl ht.1
    obtain ⟨r, hright, hr, hrn, hrm⟩ := ihr ht.2
    have hn : (allHashes (left.operands ++ right.operands)).Nonempty → n ≤ max l.maxSize r.maxSize := fun hne => by
      rw [allHashes_append, Finset.union_nonempty] at hne
      rcases hne with hne | hne
      · exact (hln hne).trans (le_max_left _ _)
      · exact (hrn hne).trans (le_max_right _ _)
    obtain ⟨s, hs, hsize, hsummary⟩ := hl.union hr hpos hn
      (forall_mem_append.2 ⟨fun s hs => (ht.1 s hs).1.below, fun s hs => (ht.2 s hs).1.below⟩)
    refine ⟨s, ?_, hsummary, fun hne => hsize ▸ hn hne, hsize ▸ max_le hlm hrm⟩
    rw [result, hleft, hright, ok_bind, ok_bind, hs]

/-- One operand after the other is added to the first. -/
def comb (t : Grouping) (rest : List ThetaSketch) : Grouping := rest.foldl (fun t s => .union t (.operand s)) t

theorem operands_comb (t : Grouping) (rest : List ThetaSketch) : (t.comb rest).operands = t.operands ++ rest := by
  induction rest generalizing t with
  | nil => exact (append_nil _).symm
  | cons s rest ih => exact (ih (t.union (.operand s))).trans (append_assoc t.operands [s] rest)

/-- A budget that is there at the start stays to the end. -/
theorem comb_summary (hpos : 0 < n) {t : Grouping} (ht : t.result = .ok s) (hs : Summary n seed t.operands s) (hn : n ≤ s.maxSize)
    {rest : List ThetaSketch} (hbelow : ∀ s ∈ t.operands, ∀ h ∈ s.hashes, h < s.thetaBound) (hrest : ∀ s ∈ rest, Operand seed s) :
    ∃ s', (t.comb rest).result = .ok s' ∧ Summary n seed (t.operands ++ rest) s' := by
  induction rest generalizing t s with
  | nil => exact ⟨s, ht, (append_nil t.operands).symm ▸ hs⟩
  | cons r rest ih =>
    rw [forall_mem_cons] at hrest
    have hboth : ∀ s ∈ t.operands ++ [r], ∀ h ∈ s.hashes, h < s.thetaBound :=
      forall_mem_append.2 ⟨hbelow, forall_mem_singleton.2 hrest.1.below⟩
    have hmax : n ≤ max s.maxSize r.maxSize := hn.trans (le_max_left _ _)
    obtain ⟨s', hs', hsize, hsummary⟩ := hs.union hrest.1.summary hpos (fun _ => hmax) hboth
    have hresult : (t.union (.operand r)).result = .ok s' := by
      rw [result, ht, ok_bind, result, ok_bind, hs']
    obtain ⟨s'', hs'', hsummary'⟩ := ih hresult hsummary (hsize ▸ hmax) hboth hrest.2
    refine ⟨s'', hs'', ?_⟩
    rwa [operands, operands, append_assoc] at hsummary'

end Grouping

/-- Every order and grouping of unions has one result: the hashes below the least
bound of an operand that is not empty, or the least `2 ^ k` of them. -/
def OrderIndependent (k : ℕ) (L : List ThetaSketch) : Prop :=
  ∃ result : Finset UInt64 × UInt64,
    (∀ t : Grouping, t.operands.Perm L → ∃ s, t.result = .ok s ∧ (s.hashes, s.thetaBound) = result) ∧
      ((∃ s ∈ L, s.hashes.Nonempty) → result = bottom (2 ^ k) (allHashes L) (leastBound L))

theorem allHashes_nonempty_iff : (allHashes L).Nonempty ↔ ∃ s ∈ L, s.hashes.Nonempty := by
  induction L with
  | nil => simp [allHashes]
  | cons s L ih =>
    have hall : allHashes (s :: L) = s.hashes ∪ allHashes L := rfl
    rw [hall, Finset.union_nonempty, ih, exists_mem_cons_iff]

/-- A single operand is left as it is, and the bound of a union is the neutral one. -/
def withoutHashes : List ThetaSketch → Finset UInt64 × UInt64
  | [s] => (s.hashes, s.thetaBound)
  | _ => (∅, maxHash)

theorem withoutHashes_of_length (hL : 1 < L.length) : withoutHashes L = (∅, maxHash) := by
  unfold withoutHashes
  split
  · simp at hL
  · rfl

/-- Without a hash there is nothing to keep. -/
theorem orderIndependent_of_empty {m : ℕ} (hL : ∀ s ∈ L, Operand seed s ∧ s.maxSize ≤ m) (hempty : allHashes L = ∅) : OrderIndependent k L := by
  refine ⟨withoutHashes L, fun t ht => ?_, fun h => ?_⟩
  · cases t with
    | operand s =>
      obtain rfl := singleton_perm.1 ht
      exact ⟨s, rfl, rfl⟩
    | union left right =>
      have hnone : allHashes (left.operands ++ right.operands) = ∅ := (allHashes_perm ht).trans hempty
      rw [allHashes_append, Finset.union_eq_empty] at hnone
      have hsummary : ∀ t : Grouping, (∀ s ∈ t.operands, s ∈ L) → allHashes t.operands = ∅ → ∃ s, t.result = .ok s ∧ Summary 1 seed t.operands s :=
        fun t ht hnone => by
          have hzero : ∀ s ∈ t.operands, ¬ s.hashes.Nonempty := fun s hs hne => by
            have := allHashes_nonempty_iff.2 ⟨s, hs, hne⟩
            rw [hnone] at this
            exact Finset.not_nonempty_empty this
          obtain ⟨s, hs, hsummary, -⟩ := t.result_summary Nat.one_pos fun s hs =>
            ⟨(hL s (ht s hs)).1, fun hne => absurd hne (hzero s hs), (hL s (ht s hs)).2⟩
          exact ⟨s, hs, hsummary⟩
      have hmem := fun s => (ht.mem_iff (a := s)).1
      obtain ⟨l, hl, hleft⟩ := hsummary left (fun s hs => hmem s (mem_append_left _ hs)) hnone.1
      obtain ⟨r, hr, hright⟩ := hsummary right (fun s hs => hmem s (mem_append_right _ hs)) hnone.2
      obtain ⟨seedHash, -, heq⟩ := union_eq hleft.origin hright.origin hleft.seeds hright.seeds
      refine ⟨_, by rw [Grouping.result, hl, hr, ok_bind, ok_bind, heq], ?_⟩
      have hlength := ht.length_eq
      rw [Grouping.operands, length_append] at hlength
      rw [withoutHashes_of_length (by have := left.length_operands_pos; have := right.length_operands_pos; omega)]
      unfold resolvedThreshold
      rw [hleft.empty hnone.1, hright.empty hnone.2]
      rfl
  · rw [← allHashes_nonempty_iff, hempty] at h
    exact absurd h Finset.not_nonempty_empty

/-- Within one budget, or with few enough hashes, the order does not matter. -/
theorem orderIndependent_of_budget {m : ℕ}
    (hL : ∀ s ∈ L, Operand seed s ∧ (s.hashes.Nonempty → 2 ^ k ≤ s.maxSize) ∧ s.maxSize ≤ m)
    (hfew : m ≤ 2 ^ k ∨ ((allHashes L).filter (· < leastBound L)).card ≤ 2 ^ k) : OrderIndependent k L := by
  rcases Finset.eq_empty_or_nonempty (allHashes L) with hempty | hne
  · exact orderIndependent_of_empty (fun s hs => ⟨(hL s hs).1, (hL s hs).2.2⟩) hempty
  · refine ⟨bottom (2 ^ k) (allHashes L) (leastBound L), fun t ht => ?_, fun _ => rfl⟩
    obtain ⟨s, hs, hsummary, -, hm⟩ := t.result_summary (Nat.two_pow_pos k) fun s hs => hL s (ht.mem_iff.1 hs)
    have hsample := hsummary.sample (allHashes_perm ht ▸ hne)
    rw [allHashes_perm ht, leastBound_perm ht] at hsample
    refine ⟨s, hs, hsample.eq_bottom ?_⟩
    rcases hfew with hbudget | hfew
    · exact hsummary.card.trans (hm.trans hbudget)
    · rwa [(hsample.eq_of_card_le hfew).1]

/-- A union that starts with the larger budget keeps more than `2 ^ k` hashes. -/
theorem not_orderIndependent (hk : k < 12) {first : ThetaSketch} {rest : List ThetaSketch} (hperm : (first :: rest).Perm L)
    (hfirst : 4096 ≤ first.maxSize) (hL : ∀ s ∈ L, Operand seed s)
    (hmany : 2 ^ k < ((allHashes L).filter (· < leastBound L)).card) : ¬ OrderIndependent k L := by
  rintro ⟨result, htrees, hresult⟩
  have hoperands := fun s hs => hL s (hperm.mem_iff.1 hs)
  rw [forall_mem_cons] at hoperands
  obtain ⟨s, hs, hsummary⟩ := Grouping.comb_summary (n := 4096) (by omega) (t := .operand first) rfl hoperands.1.summary hfirst
    (forall_mem_singleton.2 hoperands.1.below) hoperands.2
  have hne : (allHashes L).Nonempty := by
    obtain ⟨x, hx⟩ := Finset.card_pos.1 (Nat.zero_lt_of_lt hmany)
    exact ⟨x, (Finset.mem_filter.1 hx).1⟩
  have hall : allHashes ((Grouping.operand first).operands ++ rest) = allHashes L := allHashes_perm hperm
  have hbound : leastBound ((Grouping.operand first).operands ++ rest) = leastBound L := leastBound_perm hperm
  have hsample := hsummary.sample (hall ▸ hne)
  rw [hall, hbound] at hsample
  obtain ⟨s', hs', heq⟩ := htrees ((Grouping.operand first).comb rest) (by rw [Grouping.operands_comb]; exact hperm)
  rw [hs] at hs'
  cases hs'
  rw [hresult (allHashes_nonempty_iff.1 hne)] at heq
  have hcard : s.hashes.card ≤ 2 ^ k := by
    have := (isSample_bottom (2 ^ k) (allHashes L) (leastBound L)).2
    rwa [← heq] at this
  have hpow : 2 ^ k < 2 ^ 12 := Nat.pow_lt_pow_right (by omega) hk
  have := hsample.min_le_card
  omega

/-! ## A column -/

theorem allHashes_replicate_empty (absent : ℕ) : allHashes (List.replicate absent emptyDruidOrigin) = ∅ := by
  rw [← Finset.not_nonempty_iff_eq_empty, allHashes_nonempty_iff]
  rintro ⟨s, hs, hne⟩
  rw [eq_of_mem_replicate hs] at hne
  exact Finset.not_nonempty_empty hne

/-- The unions of a column's sketches and of rows without a value do not depend on the
order exactly if the nominal size is 4096 or more, or no row is without a value, or no
more than the nominal size of hashes survive. -/
theorem orderIndependent_iff {decoded : List ThetaSketch} (hdecoded : ∀ s ∈ decoded, FromDruid seed k s) (absent : ℕ) :
    OrderIndependent k (decoded ++ List.replicate absent emptyDruidOrigin) ↔
      12 ≤ k ∨ (1 ≤ k ∧ absent = 0) ∨ ((allHashes decoded).filter (· < leastBound decoded)).card ≤ 2 ^ k := by
  have hempty : ∀ s ∈ List.replicate absent emptyDruidOrigin, s = emptyDruidOrigin := fun s => eq_of_mem_replicate
  have hoperand : ∀ s ∈ decoded ++ List.replicate absent emptyDruidOrigin, Operand seed s :=
    forall_mem_append.2 ⟨fun s hs => (hdecoded s hs).operand.1, fun s hs => hempty s hs ▸ operand_emptyDruidOrigin⟩
  have hall : allHashes (decoded ++ List.replicate absent emptyDruidOrigin) = allHashes decoded := by
    rw [allHashes_append, allHashes_replicate_empty, Finset.union_empty]
  have hbound : leastBound (decoded ++ List.replicate absent emptyDruidOrigin) = leastBound decoded := by
    rw [leastBound_append, leastBound_of_empty (allHashes_replicate_empty absent), min_eq_left (le_maxHash _)]
  have hbudget : 2 ^ k ≤ budget k := by
    unfold budget
    split_ifs with hk
    · subst hk
      omega
    · exact le_rfl
  have hsizes : ∀ m, budget k ≤ m → (absent = 0 ∨ 4096 ≤ m) → ∀ s ∈ decoded ++ List.replicate absent emptyDruidOrigin,
      Operand seed s ∧ (s.hashes.Nonempty → 2 ^ k ≤ s.maxSize) ∧ s.maxSize ≤ m := fun m hm habsent s hs => by
    refine ⟨hoperand s hs, ?_⟩
    rcases mem_append.1 hs with hs | hs
    · rw [(hdecoded s hs).operand.2]
      exact ⟨fun _ => hbudget, hm⟩
    · obtain rfl := hempty s hs
      refine ⟨fun hne => absurd hne Finset.not_nonempty_empty, habsent.resolve_left ?_⟩
      rintro rfl
      cases hs
  constructor
  · intro hind
    by_contra hcases
    rw [not_or, not_or, not_le, not_le] at hcases
    obtain ⟨hk, habsent, hmany⟩ := hcases
    -- an operand with a budget of 4096 comes first
    obtain ⟨first, rest, hperm, hfirst⟩ : ∃ first rest, (first :: rest).Perm (decoded ++ List.replicate absent emptyDruidOrigin) ∧
        4096 ≤ first.maxSize := by
      cases absent with
      | succ absent => exact ⟨emptyDruidOrigin, decoded ++ List.replicate absent emptyDruidOrigin, perm_middle.symm, le_rfl⟩
      | zero =>
        cases decoded with
        | nil => exact absurd hmany (by simp [allHashes])
        | cons s decoded =>
          refine ⟨s, decoded ++ [], .refl _, ?_⟩
          have hzero : k = 0 := by omega
          rw [(hdecoded s mem_cons_self).operand.2, budget, if_pos hzero]
    exact not_orderIndependent hk hperm hfirst hoperand (by rwa [hall, hbound]) hind
  · rintro (hk | ⟨hk, rfl⟩ | hfew)
    · have hpow : 2 ^ 12 ≤ 2 ^ k := Nat.pow_le_pow_right (by omega) hk
      exact orderIndependent_of_budget (hsizes (2 ^ k) (by rw [budget, if_neg (by omega)]) (.inr hpow)) (.inl le_rfl)
    · exact orderIndependent_of_budget (hsizes (2 ^ k) (by rw [budget, if_neg (by omega)]) (.inl rfl)) (.inl le_rfl)
    · exact orderIndependent_of_budget (hsizes (max (budget k) 4096) (le_max_left _ _) (.inr (le_max_right _ _)))
        (.inr (by rwa [hall, hbound]))

/-- Sixteen hashes of a sketch of size 16. -/
def fullImage : Bytes :=
  [2, 3, 3, 4, 5, 0x1A, 0x1E, 0x93] ++ leBytes 4 16 ++ leBytes 4 0 ++ (List.range 16).flatMap fun i => leBytes 8 (i + 1)

/-- One more hash. -/
def singleImage : Bytes := [1, 3, 3, 4, 0, 0x3A, 0x1E, 0x93] ++ leBytes 8 17

theorem decodes_of_isSome (data : Bytes) (h : (fromDruidCompact data).toOption.isSome = true) : ∃ s, fromDruidCompact data = .ok s := by
  cases hdata : fromDruidCompact data with
  | error e =>
    rw [hdata] at h
    cases h
  | ok s => exact ⟨s, rfl⟩

theorem orderIndependent_iff_full : ∃ s, FromDruid 0x931E 4 s ∧
    (OrderIndependent 4 ([s] ++ List.replicate 2 emptyDruidOrigin) ↔
      12 ≤ 4 ∨ (1 ≤ 4 ∧ 2 = 0) ∨ ((allHashes [s]).filter (· < leastBound [s])).card ≤ 2 ^ 4) := by
  obtain ⟨s, hs⟩ := decodes_of_isSome fullImage (by decide +kernel)
  have hcard : (fromDruidCompact fullImage).toOption.map (·.hashes.card) = some 16 := by decide +kernel
  rw [hs] at hcard
  have hdruid : FromDruid 0x931E 4 s := ⟨fullImage, hs, by decide +kernel, by decide +kernel, (Option.some.inj hcard).le⟩
  exact ⟨s, hdruid, orderIndependent_iff (forall_mem_singleton.2 hdruid) 2⟩

/-- The number of hashes that a union of the two images leaves. -/
def unionSize (order : ThetaSketch → ThetaSketch → Grouping) : Option ℕ := do
  let full ← (fromDruidCompact fullImage).toOption
  let single ← (fromDruidCompact singleImage).toOption
  let s ← (order full single).result.toOption
  some s.hashes.card

/-- A row without a value that comes last leaves sixteen hashes; one that comes first
leaves seventeen. -/
theorem fullImage_orderDependent : ∃ full single, fromDruidCompact fullImage = .ok full ∧ fromDruidCompact singleImage = .ok single ∧
    ¬ OrderIndependent 4 [full, single, emptyDruidOrigin] := by
  obtain ⟨full, hfull⟩ := decodes_of_isSome fullImage (by decide +kernel)
  obtain ⟨single, hsingle⟩ := decodes_of_isSome singleImage (by decide +kernel)
  refine ⟨full, single, hfull, hsingle, ?_⟩
  rintro ⟨result, htrees, -⟩
  have hsize : ∀ order : ThetaSketch → ThetaSketch → Grouping,
      (order full single).operands.Perm [full, single, emptyDruidOrigin] → unionSize order = some result.1.card := fun order horder => by
    obtain ⟨s, hs, heq⟩ := htrees _ horder
    unfold unionSize
    rw [hfull, hsingle, ← heq]
    simp [Except.toOption, hs]
  have hlast := hsize (fun a b => .union (.union (.operand a) (.operand b)) (.operand emptyDruidOrigin)) (.refl _)
  have hfirst := hsize (fun a b => .union (.union (.operand emptyDruidOrigin) (.operand a)) (.operand b)) (@List.perm_append_comm _ [_] [_, _])
  rw [← hlast] at hfirst
  revert hfirst
  decide +kernel

end ThetaSketch

end FerroDruid.Sketches
