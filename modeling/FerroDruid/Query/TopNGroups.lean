import FerroDruid.Lib.CappedGroups
import FerroDruid.Query.TopN
/-!
# Groups of a TopN query

The row path feeds every row that passes to the groups of its keys. Its maps of
maps hold what one map would under pairs of a bucket and a key, and are refused
where that map would have too many keys.
-/

namespace FerroDruid.Query

open Lib List

namespace TopNQuery

variable {σ : Type} (runtime : TopNRuntime) (q : TopNQuery σ) (segment : TypedSegment)

/-! ## Feeds -/

/-- The rows that pass, each with its row map; virtual columns of the row before
are still in the map that is filled. -/
def passingRows : List (Int64 × ℕ) → JsonMap → List PassingRow
  | [], _ => []
  | (ts, rowIdx) :: rows, row =>
    if inIntervals q.intervals ts = false ∨ q.typedVerdict segment rowIdx = some false then passingRows rows row
    else
      let row := q.virtualColumns.augmentRow (TimeseriesQuery.updateRow (segment.row rowIdx) row)
      if q.matchesRow segment rowIdx row then ⟨bucketTimestamp runtime.time.calendar ts q.granularity, rowIdx, row⟩ :: passingRows rows row
      else passingRows rows row

def passing : List PassingRow := q.passingRows runtime segment (segment.timestamps.zipIdx.take segment.numRows) .empty

/-- The keys of a row. -/
def rowKeys (p : PassingRow) : List GroupKey := explodeDimValue runtime.dim q.dimension ((p.row q.dimension.inputName).getD .null)

def feedsOf (ps : List PassingRow) : List (PassingRow × GroupKey) := ps.flatMap fun p => (q.rowKeys runtime p).map fun key => (p, key)

def feeds : List (PassingRow × GroupKey) := q.feedsOf runtime (q.passing runtime segment)

variable {q} in
/-- A bucket, and a key in it. -/
def slotOf (e : PassingRow × GroupKey) : ℤ × GroupKey := (e.1.bucketKey, e.2)

/-- One map of all groups. -/
def groups : HashMap (ℤ × GroupKey) σ :=
  groupFold slotOf (fun _ => q.aggregators.create) (fun s e => q.aggregators.feed s e.1) (q.feeds runtime segment) ∅

variable (maxInflight : ℕ)

theorem foldlM_feedsOf_cons (p : PassingRow) (ps : List PassingRow) (b : Buckets σ) :
    (q.feedsOf runtime (p :: ps)).foldlM (fun b e => q.feedKey maxInflight e.1 b e.2) b =
      (q.rowKeys runtime p).foldlM (q.feedKey maxInflight p) b >>= fun b =>
        (q.feedsOf runtime ps).foldlM (fun b e => q.feedKey maxInflight e.1 b e.2) b := by
  rw [feedsOf, flatMap_cons, foldlM_append, foldlM_map]
  rfl

/-- All rows feed their keys one after the other. -/
theorem rowLoop_eq (rows : List (Int64 × ℕ)) (row : JsonMap) (b : Buckets σ) :
    q.rowLoop runtime segment maxInflight rows row b =
      (q.feedsOf runtime (q.passingRows runtime segment rows row)).foldlM (fun b e => q.feedKey maxInflight e.1 b e.2) b := by
  induction rows generalizing row b with
  | nil => rfl
  | cons r rows ih =>
    obtain ⟨ts, rowIdx⟩ := r
    rw [rowLoop, passingRows]
    by_cases hskip : inIntervals q.intervals ts = false ∨ q.typedVerdict segment rowIdx = some false
    · rw [if_pos hskip, if_pos hskip]
      exact ih _ _
    · rw [if_neg hskip, if_neg hskip]
      dsimp only
      split_ifs
      · rw [foldlM_feedsOf_cons]
        exact congrArg _ (funext fun b => ih _ b)
      · exact ih _ _

/-! ## Maps of maps -/

/-- The maps of maps hold what one map does. -/
structure Flat (b : Buckets σ) (m : HashMap (ℤ × GroupKey) σ) : Prop where
  lookup : ∀ k key, (b.dimAggs.getD k ∅).lookup key = m.lookup (k, key)
  inflight : b.inflight = m.keys.length
  bucket : ∀ k ∈ b.dimAggs.keys, ∃ key, (k, key) ∈ m.keys

variable {q runtime segment}

theorem flat_empty : Flat (σ := σ) {} ∅ := ⟨fun _ _ => rfl, rfl, fun _ hk => absurd hk not_mem_nil⟩

variable {b : Buckets σ} {m : HashMap (ℤ × GroupKey) σ}

theorem Flat.insert (h : Flat b m) (k : ℤ) (key : GroupKey) (s : σ) :
    Flat ⟨AList.insert k (AList.insert key s (b.dimAggs.getD k ∅)) b.dimAggs, if (k, key) ∈ m.keys then b.inflight else b.inflight + 1⟩
      (AList.insert (k, key) s m) := by
  refine ⟨fun k' key' => ?_, ?_, fun k' hk' => ?_⟩
  · by_cases hk : k' = k
    · subst hk
      rw [HashMap.getD_insert_self]
      by_cases hkey : key' = key
      · rw [hkey, AList.lookup_insert, AList.lookup_insert]
      · rw [AList.lookup_insert_ne hkey, AList.lookup_insert_ne (by simpa using hkey), h.lookup]
    · rw [HashMap.getD_insert_of_ne hk, AList.lookup_insert_ne (by simp [hk]), h.lookup]
  · rw [length_keys_insert, h.inflight]
    split_ifs <;> rfl
  · rw [AList.keys_insert, mem_cons] at hk'
    simp only [← AList.mem_keys, AList.mem_insert]
    rcases hk' with rfl | hk'
    · exact ⟨key, .inl rfl⟩
    · obtain ⟨key', hkey'⟩ := h.bucket k' (mem_of_mem_erase hk')
      exact ⟨key', .inr (AList.mem_keys.2 hkey')⟩

/-- A key is fed to both, or refused by both. -/
theorem feedKey_flat (h : Flat b m) (maxInflight : ℕ) (e : PassingRow × GroupKey) :
    (∃ error, q.feedKey maxInflight e.1 b e.2 = .error error ∧
        feedCapped maxInflight (overInflight maxInflight) slotOf (fun _ => q.aggregators.create) (fun s e =>
          q.aggregators.feed s e.1) m e = .error error) ∨
      ∃ b' m', q.feedKey maxInflight e.1 b e.2 = .ok b' ∧ Flat b' m' ∧
        feedCapped maxInflight (overInflight maxInflight) slotOf (fun _ => q.aggregators.create) (fun s e =>
          q.aggregators.feed s e.1) m e = .ok m' := by
  have hlookup : (b.dimAggs.getD e.1.bucketKey ∅).lookup e.2 = m.lookup (slotOf e) := h.lookup _ _
  unfold feedKey
  dsimp only
  cases hkey : m.lookup (slotOf e) with
  | some s =>
    rw [hlookup, hkey, feedCapped_some hkey]
    have hmem : slotOf e ∈ m.keys := AList.mem_keys.1 (AList.lookup_isSome.1 (by rw [hkey]; rfl))
    have hinsert := h.insert e.1.bucketKey e.2 (q.aggregators.feed s e.1)
    rw [if_pos (show (e.1.bucketKey, e.2) ∈ m.keys from hmem)] at hinsert
    exact .inr ⟨_, _, rfl, hinsert, rfl⟩
  | none =>
    rw [hlookup, hkey, feedCapped_none hkey, h.inflight]
    have hmem : slotOf e ∉ m.keys := fun hk => AList.lookup_eq_none.1 hkey (AList.mem_keys.2 hk)
    split_ifs
    · exact .inl ⟨_, rfl, rfl⟩
    · have hinsert := h.insert e.1.bucketKey e.2 (q.aggregators.feed q.aggregators.create e.1)
      rw [if_neg (show (e.1.bucketKey, e.2) ∉ m.keys from hmem), h.inflight] at hinsert
      exact .inr ⟨_, _, rfl, hinsert, rfl⟩

theorem foldlM_feedKey_flat (items : List (PassingRow × GroupKey)) (h : Flat b m) :
    (∃ error, items.foldlM (fun b e => q.feedKey maxInflight e.1 b e.2) b = .error error ∧ items.foldlM (feedCapped maxInflight
        (overInflight maxInflight) slotOf (fun _ => q.aggregators.create) fun s e => q.aggregators.feed s e.1) m = .error error) ∨
      ∃ b' m', items.foldlM (fun b e => q.feedKey maxInflight e.1 b e.2) b = .ok b' ∧ Flat b' m' ∧ items.foldlM (feedCapped maxInflight
        (overInflight maxInflight) slotOf (fun _ => q.aggregators.create) fun s e => q.aggregators.feed s e.1) m = .ok m' := by
  induction items generalizing b m with
  | nil => exact .inr ⟨b, m, rfl, h, rfl⟩
  | cons e items ih =>
    rw [foldlM_cons, foldlM_cons]
    rcases feedKey_flat h maxInflight e with ⟨error, hfeed, hcapped⟩ | ⟨b', m', hfeed, hflat, hcapped⟩
    · rw [hfeed, hcapped]
      exact .inl ⟨error, rfl, rfl⟩
    · rw [hfeed, hcapped]
      exact ih hflat

/-- The row path ends with the groups if they fit, and on the first one too many if not. -/
theorem buckets_eq :
    if Fits maxInflight (q.groups runtime segment) then ∃ b, q.buckets runtime segment maxInflight = .ok b ∧ Flat b (q.groups runtime segment)
    else q.buckets runtime segment maxInflight = .error (overInflight maxInflight (maxInflight + 1)) := by
  have hfold := foldlM_feedCapped maxInflight (overInflight maxInflight) slotOf (fun _ => q.aggregators.create)
    (fun s e => q.aggregators.feed s e.1) (q.feeds runtime segment) (m := ∅) (.inr (Nat.zero_le _))
  have hloop : q.buckets runtime segment maxInflight = (q.feeds runtime segment).foldlM (fun b e => q.feedKey maxInflight e.1 b e.2) {} :=
    rowLoop_eq runtime q segment maxInflight _ _ _
  rw [← groups] at hfold
  rcases foldlM_feedKey_flat (q := q) maxInflight (q.feeds runtime segment) flat_empty with ⟨error, hrun, hcapped⟩ | ⟨b, m, hrun, hflat, hcapped⟩
  · rw [hfold] at hcapped
    split_ifs at hcapped ⊢
    cases hcapped
    exact hloop.trans hrun
  · rw [hfold] at hcapped
    split_ifs at hcapped ⊢
    cases hcapped
    exact ⟨b, hloop.trans hrun, hflat⟩

theorem flat_of_buckets {maxInflight : ℕ} (h : q.buckets runtime segment maxInflight = .ok b) : Flat b (q.groups runtime segment) := by
  have heq : if Fits maxInflight (q.groups runtime segment) then ∃ b, q.buckets runtime segment maxInflight = .ok b ∧ Flat b (q.groups runtime segment)
      else q.buckets runtime segment maxInflight = .error (overInflight maxInflight (maxInflight + 1)) := buckets_eq maxInflight
  split_ifs at heq
  · obtain ⟨b', hb', hflat⟩ := heq
    rw [hb'] at h
    cases h
    exact hflat
  · rw [heq] at h
    cases h

/-! ## Rows of a group -/

variable (q runtime segment) in
/-- The rows fed to a group. -/
def fedRows (k : ℤ) (key : GroupKey) : List PassingRow := ((q.feeds runtime segment).filter (slotOf · = (k, key))).map (·.1)

theorem lookup_groups (k : ℤ) (key : GroupKey) : (q.groups runtime segment).lookup (k, key) =
    match q.fedRows runtime segment k key with
    | [] => none
    | p :: ps => some ((p :: ps).foldl q.aggregators.feed q.aggregators.create) := by
  rw [groups, lookup_groupFold_empty, fedRows]
  cases (q.feeds runtime segment).filter (slotOf · = (k, key)) with
  | nil => rfl
  | cons e es =>
    simp only [map_cons, foldl_cons, foldl_map]

variable {k : ℤ} {key : GroupKey}

/-- The state of a group is that of its rows. -/
theorem Flat.lookup_eq_some (h : Flat b (q.groups runtime segment)) {s : σ} :
    (b.dimAggs.getD k ∅).lookup key = some s ↔
      q.fedRows runtime segment k key ≠ [] ∧ s = (q.fedRows runtime segment k key).foldl q.aggregators.feed q.aggregators.create := by
  rw [h.lookup, lookup_groups]
  cases q.fedRows runtime segment k key with
  | nil => simp
  | cons p ps => simp [eq_comm]

theorem Flat.mem_keys (h : Flat b (q.groups runtime segment)) :
    key ∈ (b.dimAggs.getD k ∅).keys ↔ q.fedRows runtime segment k key ≠ [] := by
  rw [← AList.mem_keys, ← AList.lookup_isSome, Option.isSome_iff_exists]
  simp only [h.lookup_eq_some, exists_and_left, exists_eq, and_true]

theorem Flat.mem_bucketKeys (h : Flat b (q.groups runtime segment)) :
    k ∈ bucketKeys b ↔ ∃ key, q.fedRows runtime segment k key ≠ [] := by
  rw [bucketKeys, mem_foldl_insertKey, or_iff_left not_mem_nil]
  constructor
  · intro hk
    obtain ⟨key, hkey⟩ := h.bucket k hk
    obtain ⟨s, hs⟩ := Option.isSome_iff_exists.1 (AList.lookup_isSome.2 (AList.mem_keys.2 hkey))
    exact ⟨key, (h.lookup_eq_some.1 ((h.lookup k key).trans hs)).1⟩
  · rintro ⟨key, hkey⟩
    rw [← AList.mem_keys, ← AList.lookup_isSome]
    have hmem := h.mem_keys.2 hkey
    rw [HashMap.getD] at hmem
    cases hlookup : b.dimAggs.lookup k with
    | none =>
      rw [hlookup] at hmem
      exact absurd hmem not_mem_nil
    | some dimAggs => rfl

variable (q runtime segment) in
/-- The dimension values of a bucket. -/
def valuesIn (k : ℤ) : List GroupKey := firsts (((q.feeds runtime segment).filter (·.1.bucketKey = k)).map (·.2))

theorem mem_valuesIn : key ∈ q.valuesIn runtime segment k ↔ q.fedRows runtime segment k key ≠ [] := by
  rw [valuesIn, mem_firsts, fedRows, ne_eq, map_eq_nil_iff, filter_eq_nil_iff]
  simp [slotOf]

theorem Flat.keys_perm (h : Flat b (q.groups runtime segment)) (k : ℤ) :
    (b.dimAggs.getD k ∅).keys.Perm (q.valuesIn runtime segment k) :=
  (perm_ext_iff_of_nodup (AList.keys_nodup _) (nodup_firsts _)).2 fun _ => h.mem_keys.trans mem_valuesIn.symm

/-! ## Entries -/

theorem sortKeys_of_entriesOf {runtime : TopNRuntime} {q : TopNQuery σ} {dimAggs : HashMap GroupKey σ} {entries : List (TopNEntry (GroupKey × σ))}
    (h : q.entriesOf runtime dimAggs = .ok entries) :
    entries.map (fun e => (e.payload.1, e.sortKey)) = dimAggs.keys.map fun key => (key, key.asSortKey runtime.displayF64) := by
  rw [AList.keys, List.keys, map_map]
  refine (map_eq_map_of_mapM h fun e entry hentry => ?_).symm
  obtain ⟨outputs, -, hentry⟩ := bind_eq_ok.1 hentry
  cases hentry
  rfl

end TopNQuery

end FerroDruid.Query
