import FerroDruid.Broker.TimeseriesGather
import FerroDruid.Query.TopNEntries
import FerroDruid.Query.TopNPages
/-!
# TopN of many segments

`merge_topn_capped` of `ferrodruid-broker/src/lib.rs` up to the ranking.
`bucket_map` and `ts_order` are one list of entries, and so are `merged` and
`key_order`. What is merged under a key is any value with a merge. Exact
cardinalities, finalized before the ranking, are not among the aggregations.
-/

namespace FerroDruid.Broker

open Lib Query Aggregator List

def asText : Json → Option Utf8
  | .string s => some s
  | _ => none

/-- The first text of an entry, or the empty one. -/
def firstText (entry : Event) : Utf8 := (entry.findSome? fun field => asText field.2).getD ⟨[], Eq.refl true⟩

/-- `dim_key` -/
def dimKey (dimOut : String) (entry : Event) : Utf8 := ((entry.get dimOut).bind asText).getD (firstText entry)

/-- The entries of each time, as the segments have them. -/
def bucketMap (partials : List (List TopNResult)) : List (String × List Event) :=
  (partials.flatten.map fun entry => (entry.timestamp, entry.result)).foldl (upsert (· ++ ·) []) []

section

variable {β : Type} (merge : β → β → β) (init : β) (value : Event → β) (dimOut : String) (maxInflight : ℕ)

def mergeEntry (s : List (Utf8 × β) × ℕ) (entry : Event) : Except DruidError (List (Utf8 × β) × ℕ) :=
  let key := dimKey dimOut entry
  if key ∈ s.1.map (·.1) then .ok (upsert merge init s.1 (key, value entry), s.2)
  else if 0 < maxInflight ∧ maxInflight ≤ s.2 then .error (.resourceLimit "topN.maxMergedIntermediateRows" maxInflight (s.2 + 1))
  else .ok (upsert merge init s.1 (key, value entry), s.2 + 1)

/-- The entries of a time, and how many there are with those of the times before. -/
def mergeBucket (entries : List Event) (inflight : ℕ) : Except DruidError (List (Utf8 × β) × ℕ) :=
  entries.foldlM (mergeEntry merge init value dimOut maxInflight) ([], inflight)

def mergeBuckets : List (String × List Event) → ℕ → Except DruidError (List (String × List β))
  | [], _ => .ok []
  | (ts, entries) :: buckets, inflight => do
    let (merged, inflight) ← mergeBucket merge init value dimOut maxInflight entries inflight
    let rest ← mergeBuckets buckets inflight
    .ok ((ts, merged.map (·.2)) :: rest)

end

section

variable {σ : Type} (legacy : Bool) (aggregations : List AggregatorSpec) (q : TopNQuery σ) (maxInflight : ℕ)

/-- The merged entries, before they are ranked. -/
def mergedEntries (partials : List (List TopNResult)) : Except DruidError (List (String × List JsonMap)) := do
  let buckets ← mergeBuckets (mergeAggMaps legacy aggregations) .empty Event.get q.dimension.outputName maxInflight (bucketMap partials) 0
  .ok (buckets.map fun b => (b.1, b.2.map (applyPostAggs q.postAggregations)))

end

/-! ## Gathered TopN

The merge holds an entry under its dimension value if that is a text, and under
its first other text or the empty one if not. So values are kept apart exactly
where these texts are, and the merged entries are then those of all rows. -/

open TopNQuery

/-! ## Keys of entries -/

section

variable (dimOut : String) (entries : List Event)

/-- Merged are exactly the entries of one dimension value. -/
def KeepsApart : Prop :=
  ∀ (β : Type) (merge : β → β → β) (init : β) (value : Event → β) (maxInflight inflight : ℕ) (merged : List (Utf8 × β) × ℕ),
    mergeBucket merge init value dimOut maxInflight entries inflight = .ok merged →
      merged.1.map (·.2) = (classes (fun e : Event => e.get dimOut) entries).map fun c => (c.map value).foldl merge init

def IsText (value : Option Json) : Prop := ∃ s, value = some (.string s)

/-- A value that is no text has a first text of its own in all its entries, which is
no value either. -/
structure TextsApart : Prop where
  standIn : ∀ a ∈ entries, ∀ b ∈ entries, ¬ IsText (a.get dimOut) → ¬ IsText (b.get dimOut) →
    (firstText a = firstText b ↔ a.get dimOut = b.get dimOut)
  texts : ∀ a ∈ entries, ¬ IsText (a.get dimOut) → ∀ b ∈ entries, ∀ s, b.get dimOut = some (.string s) → firstText a ≠ s

end

section

variable {β : Type} {merge : β → β → β} {init : β} {value : Event → β} {dimOut : String} {maxInflight : ℕ}

theorem foldlM_mergeEntry {entries : List Event} {s merged : List (Utf8 × β) × ℕ}
    (h : entries.foldlM (mergeEntry merge init value dimOut maxInflight) s = .ok merged) :
    merged.1 = (entries.map fun e => (dimKey dimOut e, value e)).foldl (upsert merge init) s.1 := by
  induction entries generalizing s with
  | nil =>
    cases h
    rfl
  | cons e entries ih =>
    obtain ⟨s', hs', h⟩ := bind_eq_ok.1 h
    rw [ih h, map_cons, foldl_cons]
    refine congrArg (List.foldl _ · _) ?_
    unfold mergeEntry at hs'
    dsimp only at hs'
    split_ifs at hs' <;> cases hs' <;> rfl

/-- The entries are merged class by class. -/
theorem mergeBucket_eq {entries : List Event} {inflight : ℕ} {merged : List (Utf8 × β) × ℕ}
    (h : mergeBucket merge init value dimOut maxInflight entries inflight = .ok merged) :
    merged.1.map (·.2) = (classes (dimKey dimOut) entries).map fun c => (c.map value).foldl merge init := by
  rw [foldlM_mergeEntry h, foldl_upsert_classes]

theorem exists_mergeBucket (entries : List Event) (inflight : ℕ) :
    ∃ merged, mergeBucket merge init value dimOut 0 entries inflight = .ok merged := by
  unfold mergeBucket
  generalize ([], inflight) = s
  induction entries generalizing s with
  | nil => exact ⟨s, rfl⟩
  | cons e entries ih =>
    have hstep : ∃ s', mergeEntry merge init value dimOut 0 s e = .ok s' := by
      unfold mergeEntry
      dsimp only
      split_ifs with hkey hfull
      · exact ⟨_, rfl⟩
      · exact absurd hfull.1 (lt_irrefl _)
      · exact ⟨_, rfl⟩
    obtain ⟨s', hs'⟩ := hstep
    rw [foldlM_cons, hs']
    exact ih s'

theorem mergeBuckets_eq {buckets : List (String × List Event)} {inflight : ℕ} {merged : List (String × List β)}
    (h : mergeBuckets merge init value dimOut maxInflight buckets inflight = .ok merged) :
    merged = buckets.map fun b => (b.1, (classes (dimKey dimOut) b.2).map fun c => (c.map value).foldl merge init) := by
  induction buckets generalizing inflight merged with
  | nil =>
    cases h
    rfl
  | cons b buckets ih =>
    obtain ⟨⟨first, inflight'⟩, hfirst, h⟩ := bind_eq_ok.1 h
    obtain ⟨rest, hrest, h⟩ := bind_eq_ok.1 h
    cases h
    rw [map_cons, ← ih hrest, ← mergeBucket_eq hfirst]

end

theorem dimKey_of_text {dimOut : String} {entry : Event} {s : Utf8} (h : entry.get dimOut = some (.string s)) : dimKey dimOut entry = s := by
  rw [dimKey, h]
  rfl

theorem dimKey_of_not_text {dimOut : String} {entry : Event} (h : ¬ IsText (entry.get dimOut)) : dimKey dimOut entry = firstText entry := by
  unfold dimKey
  cases hget : entry.get dimOut with
  | none => rfl
  | some v =>
    cases v with
    | string s => exact absurd ⟨s, hget⟩ h
    | null | bool | number | array | object => rfl

/-- Entries are held apart by their keys as by their values exactly if the texts are apart. -/
theorem sameKeys_iff (dimOut : String) (entries : List Event) :
    (∀ a ∈ entries, ∀ b ∈ entries, dimKey dimOut a = dimKey dimOut b ↔ a.get dimOut = b.get dimOut) ↔ TextsApart dimOut entries := by
  constructor
  · intro h
    refine ⟨fun a ha b hb hna hnb => ?_, fun a ha hna b hb s hs heq => ?_⟩
    · rw [← h a ha b hb, dimKey_of_not_text hna, dimKey_of_not_text hnb]
    · refine hna ⟨s, ?_⟩
      rw [← hs, ← h a ha b hb, dimKey_of_not_text hna, dimKey_of_text hs, heq]
  · intro h a ha b hb
    refine ⟨fun heq => ?_, fun heq => ?_⟩
    · by_cases hta : IsText (a.get dimOut)
      · obtain ⟨s, hs⟩ := hta
        by_cases htb : IsText (b.get dimOut)
        · obtain ⟨t, ht⟩ := htb
          rw [dimKey_of_text hs, dimKey_of_text ht] at heq
          rw [hs, ht, heq]
        · rw [dimKey_of_text hs, dimKey_of_not_text htb] at heq
          exact absurd heq.symm (h.texts b hb htb a ha s hs)
      · by_cases htb : IsText (b.get dimOut)
        · obtain ⟨t, ht⟩ := htb
          rw [dimKey_of_not_text hta, dimKey_of_text ht] at heq
          exact absurd heq (h.texts a ha hta b hb t ht)
        · rw [dimKey_of_not_text hta, dimKey_of_not_text htb] at heq
          exact (h.standIn a ha b hb hta htb).1 heq
    · by_cases hta : IsText (a.get dimOut)
      · obtain ⟨s, hs⟩ := hta
        rw [dimKey_of_text hs, dimKey_of_text (heq ▸ hs)]
      · have htb : ¬ IsText (b.get dimOut) := heq ▸ hta
        rw [dimKey_of_not_text hta, dimKey_of_not_text htb]
        exact (h.standIn a ha b hb hta htb).2 heq

theorem keepsApart_iff (dimOut : String) (entries : List Event) : KeepsApart dimOut entries ↔ TextsApart dimOut entries := by
  rw [← sameKeys_iff, ← classes_eq_iff]
  constructor
  · intro h
    obtain ⟨merged, hmerged⟩ : ∃ merged, mergeBucket (· ++ ·) [] (fun e : Event => [e]) dimOut 0 entries 0 = .ok merged :=
      exists_mergeBucket entries 0
    have hclasses := h _ _ _ _ _ _ merged hmerged
    rw [mergeBucket_eq hmerged] at hclasses
    -- a class is what its entries are merged to
    have hid : ∀ c : List Event, (c.map fun e => [e]).foldl (· ++ ·) [] = c := fun c => by
      rw [foldl_map, foldl_append_eq_append, nil_append, ← flatMap_def, flatMap_singleton']
    simpa only [hid, map_id'] using hclasses
  · intro h β merge init value maxInflight inflight merged hmerged
    rw [mergeBucket_eq hmerged, h]

/-! ## Dimension values -/

/-- The text of a value that is one, or the empty one. -/
def textOf : GroupKey → Utf8
  | .string s => s
  | _ => ⟨[], Eq.refl true⟩

theorem textOf_eq (key : GroupKey) : textOf key = (asText key.toJson).getD ⟨[], Eq.refl true⟩ := by
  cases key with
  | string | long | bool | null => rfl
  | double x =>
    rw [GroupKey.toJson, Json.ofF64]
    split_ifs <;> rfl

theorem eq_of_textOf {key key' : GroupKey} (hempty : textOf key = ⟨[], Eq.refl true⟩ → textOf key' = ⟨[], Eq.refl true⟩ → key = key')
    (h : textOf key = textOf key') : key = key' := by
  by_cases htext : textOf key = ⟨[], Eq.refl true⟩
  · exact hempty htext (h ▸ htext)
  · cases key with
    | string s =>
      cases key' with
      | string s' => exact congrArg GroupKey.string h
      | long | double | bool | null => exact absurd h htext
    | long | double | bool | null => exact absurd rfl htext

section

variable {legacy : Bool} {dimOut : String} {aggregations : List AggregatorSpec} {postAggs : List PostAggregator}
  (hplain : PlainOutputs dimOut aggregations postAggs)
include hplain

variable {key : GroupKey}

theorem get_of_isEntry {rows : List JsonMap} {event : Event} (h : IsEntry legacy dimOut aggregations postAggs key rows event) :
    event.get dimOut = some key.toJson := by
  rw [h.get, valueMapOf_dimension hplain]

/-- The entry of a value is held under the text of it. -/
theorem dimKey_of_isEntry {rows : List JsonMap} {event : Event} (h : IsEntry legacy dimOut aggregations postAggs key rows event) :
    dimKey dimOut event = textOf key := by
  have hget := get_of_isEntry hplain h
  by_cases hkey : ∃ s, key.toJson = .string s
  · obtain ⟨s, hs⟩ := hkey
    rw [dimKey_of_text (hget.trans (congrArg some hs))]
    cases key with
    | string t => exact (Json.string.inj hs).symm
    | long | bool | null => cases hs
    | double x =>
      rw [GroupKey.toJson, Json.ofF64] at hs
      split_ifs at hs
  · have hnot : ¬ IsText (event.get dimOut) := by
      rintro ⟨s, hs⟩
      exact hkey ⟨s, Option.some.inj (hget.symm.trans hs)⟩
    have hnone : event.findSome? (fun field => asText field.2) = none := by
      refine findSome?_eq_none_iff.2 fun field hfield => ?_
      have htext : ∀ s, field.2 ≠ .string s := by
        rcases h.texts field hfield with rfl | htext
        · exact fun s hs => hkey ⟨s, hs⟩
        · exact htext
      cases hvalue : field.2 with
      | string s => exact absurd hvalue (htext s)
      | null | bool | number | array | object => rfl
    rw [dimKey_of_not_text hnot, firstText, hnone]
    cases key with
    | string s => exact absurd ⟨s, rfl⟩ hkey
    | long | double | bool | null => rfl

/-- Post-aggregations of a map that has the dimension value. -/
theorem applyPostAggs_self {v : Json} {m : JsonMap} (hm : m dimOut = some v) :
    applyPostAggs postAggs m = applyPostAggs (dimensionField dimOut v :: postAggs) m := by
  have hsame : m.insert dimOut v = m := by
    funext name
    unfold JsonMap.insert
    split_ifs with hname
    · rw [hname, hm]
    · rfl
  rw [← applyPostAggs_dimension hplain, hsame]

/-- Merged maps of a value, with post-aggregations computed again, are the map of all its rows. -/
theorem merged_dimension_value (first : List JsonMap) (rest : List (List JsonMap))
    (hwithin : ∀ spec ∈ aggregations, WithinFloat legacy spec.kind ((first :: rest).map (·.map (spec.fed legacy)))) :
    applyPostAggs postAggs (((first :: rest).map (valueMapOf legacy dimOut aggregations postAggs key)).foldl
      (mergeAggMaps legacy aggregations) .empty) =
      valueMapOf legacy dimOut aggregations postAggs key (first :: rest).flatten := by
  have hspec : specByName aggregations dimOut = none := by
    cases hname : specByName aggregations dimOut with
    | none => rfl
    | some spec =>
      obtain ⟨hmem, hname⟩ := specByName_some hname
      exact absurd hname (hplain.dimension spec hmem)
  have hdim : ((first :: rest).map (valueMapOf legacy dimOut aggregations postAggs key)).foldl (mergeAggMaps legacy aggregations) .empty dimOut =
      some key.toJson := by
    rw [map_cons, foldl_cons, mergeAggMaps_empty]
    exact foldl_mergeAggMaps_kept hspec (valueMapOf_dimension hplain key first)
  rw [applyPostAggs_self hplain hdim]
  exact merged_parts (hplain.cons key.toJson) first rest hwithin

end

/-! ## Runs -/

section

variable (runtime : TopNRuntime) (q : TopNQuery (List LiveAggregator)) (legacy : Bool) (aggregations : List AggregatorSpec)

def viewOf (p : PassingRow) : ℤ × JsonMap := (p.bucketKey, p.row)

/-- The segments have the matching rows of the whole one. -/
def HasRowsOf (whole : TypedSegment) (segments : List TypedSegment) : Prop :=
  ((q.passing runtime whole).map viewOf).Perm (segments.flatMap fun segment => (q.passing runtime segment).map viewOf)

/-- The row maps of a group. -/
def rowsOf (segment : TypedSegment) (k : ℤ) (key : GroupKey) : List JsonMap := (q.fedRows runtime segment k key).map (·.row)

/-- In no bucket of all rows are there two values without a text. -/
def ValuesApart (whole : TypedSegment) : Prop :=
  ∀ k, ∀ key ∈ q.valuesIn runtime whole k, ∀ key' ∈ q.valuesIn runtime whole k, q.shown runtime key = true → q.shown runtime key' = true →
    textOf key = ⟨[], Eq.refl true⟩ → textOf key' = ⟨[], Eq.refl true⟩ → key = key'

/-- The merged entries are those of the groups of all rows, before these are ranked. -/
def SameEntries (b : Buckets (List LiveAggregator)) (merged : List (String × List JsonMap)) : Prop :=
  (merged.map (·.1)).Perm (b.dimAggs.keys.map (q.bucketTime runtime)) ∧
    ∀ k ∈ b.dimAggs.keys, ∀ entries, q.entriesOf runtime (b.dimAggs.getD k ∅) = .ok entries → ∀ maps, (q.bucketTime runtime k, maps) ∈ merged →
      maps.Perm ((applyPreviousStop q.metric entries).map fun e => (q.emitted e).get)

/-- What a segment returns, with its dimension values. -/
structure IsPart (p : TypedSegment × List (ℤ × List (GroupKey × Event))) : Prop where
  nodup : (p.2.map (·.1)).Nodup
  mem : ∀ k, k ∈ p.2.map (·.1) ↔ ∃ key, key ∈ q.valuesIn runtime p.1 k
  tagged : ∀ x ∈ p.2, q.TaggedBucket runtime p.1 legacy aggregations x.1 x.2

end

/-- The tagged entries of a bucket. -/
def entriesAt (parts : List (TypedSegment × List (ℤ × List (GroupKey × Event)))) (k : ℤ) : List (GroupKey × Event) :=
  ((parts.flatMap (·.2)).filter (·.1 = k)).flatMap (·.2)

def bucketsOf (parts : List (TypedSegment × List (ℤ × List (GroupKey × Event)))) : List ℤ := firsts ((parts.flatMap (·.2)).map (·.1))

variable {runtime : TopNRuntime} {q : TopNQuery (List LiveAggregator)} {legacy : Bool} {aggregations : List AggregatorSpec}
  {whole : TypedSegment} {segments : List TypedSegment} {parts : List (TypedSegment × List (ℤ × List (GroupKey × Event)))}

theorem rowsOf_eq (segment : TypedSegment) (k : ℤ) (key : GroupKey) :
    rowsOf runtime q segment k key = ((q.passing runtime segment).map viewOf).flatMap fun v =>
      if v.1 = k then ((explodeDimValue runtime.dim q.dimension ((v.2 q.dimension.inputName).getD .null)).filter
        (· = key)).map fun _ => v.2 else [] := by
  rw [rowsOf, fedRows, feeds, feedsOf, flatMap_map, filter_flatMap, map_flatMap, map_flatMap]
  refine flatMap_congr fun p _ => ?_
  rw [filter_map, map_map, map_map, TopNQuery.rowKeys, viewOf]
  by_cases hk : p.bucketKey = k
  · simp [slotOf, hk, Function.comp_def]
  · simp [slotOf, hk, Function.comp_def]

theorem rowsOf_perm (h : HasRowsOf runtime q whole segments) (k : ℤ) (key : GroupKey) :
    (rowsOf runtime q whole k key).Perm (segments.flatMap fun segment => rowsOf runtime q segment k key) := by
  simp only [rowsOf_eq]
  rw [← flatMap_assoc]
  exact h.flatMap_right _

theorem mem_valuesIn_whole (h : HasRowsOf runtime q whole segments) (k : ℤ) (key : GroupKey) :
    key ∈ q.valuesIn runtime whole k ↔ ∃ segment ∈ segments, key ∈ q.valuesIn runtime segment k := by
  have hnil : ∀ segment, key ∈ q.valuesIn runtime segment k ↔ rowsOf runtime q segment k key ≠ [] := fun segment => by
    rw [mem_valuesIn, rowsOf, ne_eq, ne_eq, map_eq_nil_iff]
  have hlen := (rowsOf_perm h k key).length_eq
  simp only [hnil]
  rw [ne_eq, ← length_eq_zero_iff, hlen, length_eq_zero_iff, flatMap_eq_nil_iff]
  push Not
  rfl

/-! ## Parts -/

theorem filter_key_of_nodup {α κ : Type} [DecidableEq κ] {f : α → κ} {l : List α} (h : (l.map f).Nodup) {a : α} (ha : a ∈ l) :
    l.filter (f · = f a) = [a] := by
  induction l with
  | nil => cases ha
  | cons b l ih =>
    rw [map_cons, nodup_cons] at h
    by_cases hb : f b = f a
    · have hnone : l.filter (f · = f a) = [] := filter_eq_nil_iff.2 fun c hc hca =>
        h.1 (hb ▸ of_decide_eq_true hca ▸ mem_map_of_mem hc)
      have hab : a = b := (mem_cons.1 ha).resolve_right fun hal => h.1 (hb ▸ mem_map_of_mem hal)
      rw [filter_cons_of_pos (by simpa using hb), hnone, hab]
    · have hal : a ∈ l := (mem_cons.1 ha).resolve_left fun hab => hb (hab ▸ rfl)
      rw [filter_cons_of_neg (by simpa using hb), ih h.2 hal]

/-- In a part, a value that is shown has the map of its rows. -/
theorem IsPart.maps {p : TypedSegment × List (ℤ × List (GroupKey × Event))} (hp : IsPart runtime q legacy aggregations p) (k : ℤ) {key : GroupKey}
    (hshown : q.shown runtime key = true) :
    (((p.2.filter (·.1 = k)).flatMap (·.2)).filter (·.1 = key)).map (fun x => x.2.get) =
      if key ∈ q.valuesIn runtime p.1 k then
        [valueMapOf legacy q.dimension.outputName aggregations q.postAggregations key (rowsOf runtime q p.1 k key)] else [] := by
  by_cases hk : k ∈ p.2.map (·.1)
  · obtain ⟨bucket, hbucket, rfl⟩ := mem_map.1 hk
    have htagged := hp.tagged bucket hbucket
    rw [filter_key_of_nodup hp.nodup hbucket, flatMap_singleton]
    by_cases hkey : key ∈ q.valuesIn runtime p.1 bucket.1
    · obtain ⟨x, hx, rfl⟩ := mem_map.1 ((htagged.mem key).2 ⟨hkey, hshown⟩)
      rw [filter_key_of_nodup htagged.nodup hx, if_pos hkey, map_singleton, (htagged.entry x hx).get]
      rfl
    · have hnone : bucket.2.filter (·.1 = key) = [] := filter_eq_nil_iff.2 fun x hx hxkey =>
        hkey ((htagged.mem key).1 (of_decide_eq_true hxkey ▸ mem_map_of_mem hx)).1
      rw [hnone, if_neg hkey, map_nil]
  · have hnone : p.2.filter (·.1 = k) = [] := filter_eq_nil_iff.2 fun x hx hxk => hk (of_decide_eq_true hxk ▸ mem_map_of_mem hx)
    have hkey : key ∉ q.valuesIn runtime p.1 k := fun hkey => hk ((hp.mem k).2 ⟨key, hkey⟩)
    rw [hnone, if_neg hkey]
    rfl

/-- The entries of each time: the buckets in the order of their arrival. -/
theorem bucketMap_parts (hinj : ∀ k ∈ bucketsOf parts, ∀ k' ∈ bucketsOf parts, q.bucketTime runtime k = q.bucketTime runtime k' → k = k') :
    bucketMap (parts.map fun p => p.2.map fun x => (⟨q.bucketTime runtime x.1, x.2.map (·.2)⟩ : TopNResult)) =
      (bucketsOf parts).map fun k => (q.bucketTime runtime k, (entriesAt parts k).map (·.2)) := by
  have hentries : ((parts.map fun p => p.2.map fun x => (⟨q.bucketTime runtime x.1, x.2.map (·.2)⟩ : TopNResult)).flatten.map
      fun entry => (entry.timestamp, entry.result)) = (parts.flatMap (·.2)).map fun x => (q.bucketTime runtime x.1, x.2.map (·.2)) := by
    rw [map_flatten, map_map, flatMap_def, map_flatten, map_map]
    simp only [Function.comp_def, map_map]
  have hkeys : ∀ k ∈ (parts.flatMap (·.2)).map (·.1), k ∈ bucketsOf parts := fun k hk => mem_firsts.2 hk
  rw [bucketMap, hentries, foldl_upsert, map_map]
  have htimes : (parts.flatMap (·.2)).map ((·.1) ∘ fun x => (q.bucketTime runtime x.1, x.2.map (·.2))) =
      ((parts.flatMap (·.2)).map (·.1)).map (q.bucketTime runtime) := by
    rw [map_map]
    rfl
  rw [htimes, firsts_map_of_injOn fun a ha b hb => hinj a (hkeys a ha) b (hkeys b hb), map_map]
  refine map_congr_left fun k hk => Prod.ext rfl ?_
  simp only [Function.comp_apply, filter_map, map_map]
  rw [foldl_map, foldl_append_eq_append, nil_append, ← flatMap_def, entriesAt, map_flatMap]
  have hsame : ((parts.flatMap (·.2)).filter ((fun e => decide (e = q.bucketTime runtime k)) ∘ fun x => q.bucketTime runtime x.1)) =
      (parts.flatMap (·.2)).filter (·.1 = k) := filter_congr fun x hx => by
    rw [Function.comp_apply, decide_eq_decide]
    exact ⟨hinj x.1 (hkeys _ (mem_map_of_mem hx)) k hk, fun h => h ▸ rfl⟩
  exact congrArg (List.flatMap _) hsame

section

variable (hparts : ∀ p ∈ parts, IsPart runtime q legacy aggregations p)
include hparts

theorem mem_entriesAt {k : ℤ} {x : GroupKey × Event} (hx : x ∈ entriesAt parts k) :
    ∃ p ∈ parts, x.1 ∈ q.valuesIn runtime p.1 k ∧ q.shown runtime x.1 = true ∧
      IsEntry legacy q.dimension.outputName aggregations q.postAggregations x.1 (rowsOf runtime q p.1 k x.1) x.2 := by
  obtain ⟨bucket, hfilter, hin⟩ := mem_flatMap.1 hx
  obtain ⟨hflat, hk⟩ := mem_filter.1 hfilter
  obtain ⟨p, hp, hbucket⟩ := mem_flatMap.1 hflat
  obtain rfl := of_decide_eq_true hk
  have htagged := (hparts p hp).tagged bucket hbucket
  obtain ⟨hvalue, hshown⟩ := (htagged.mem x.1).1 (mem_map_of_mem hin)
  exact ⟨p, hp, hvalue, hshown, htagged.entry x hin⟩

theorem mem_keys_entriesAt {k : ℤ} {key : GroupKey} :
    key ∈ (entriesAt parts k).map (·.1) ↔ (∃ p ∈ parts, key ∈ q.valuesIn runtime p.1 k) ∧ q.shown runtime key = true := by
  constructor
  · intro h
    obtain ⟨x, hx, rfl⟩ := mem_map.1 h
    obtain ⟨p, hp, hvalue, hshown, -⟩ := mem_entriesAt hparts hx
    exact ⟨⟨p, hp, hvalue⟩, hshown⟩
  · rintro ⟨⟨p, hp, hvalue⟩, hshown⟩
    obtain ⟨bucket, hbucket, rfl⟩ := mem_map.1 (((hparts p hp).mem k).2 ⟨key, hvalue⟩)
    obtain ⟨x, hx, rfl⟩ := mem_map.1 ((((hparts p hp).tagged bucket hbucket).mem key).2 ⟨hvalue, hshown⟩)
    refine mem_map_of_mem (mem_flatMap.2 ⟨bucket, mem_filter.2 ⟨mem_flatMap.2 ⟨p, hp, hbucket⟩, decide_eq_true rfl⟩, hx⟩)

theorem mem_bucketsOf {k : ℤ} : k ∈ bucketsOf parts ↔ ∃ p ∈ parts, ∃ key, key ∈ q.valuesIn runtime p.1 k := by
  rw [bucketsOf, mem_firsts, mem_map]
  constructor
  · rintro ⟨bucket, hbucket, rfl⟩
    obtain ⟨p, hp, hbucket⟩ := mem_flatMap.1 hbucket
    exact ⟨p, hp, ((hparts p hp).mem _).1 (mem_map_of_mem hbucket)⟩
  · rintro ⟨p, hp, hkey⟩
    obtain ⟨bucket, hbucket, rfl⟩ := mem_map.1 (((hparts p hp).mem k).2 hkey)
    exact ⟨bucket, mem_flatMap.2 ⟨p, hp, hbucket⟩, rfl⟩

/-- The maps of a value, part by part. -/
theorem maps_entriesAt (k : ℤ) {key : GroupKey} (hshown : q.shown runtime key = true) :
    ((entriesAt parts k).filter (·.1 = key)).map (fun x => x.2.get) =
      (parts.filter fun p => key ∈ q.valuesIn runtime p.1 k).map fun p =>
        valueMapOf legacy q.dimension.outputName aggregations q.postAggregations key (rowsOf runtime q p.1 k key) := by
  induction parts with
  | nil => rfl
  | cons p parts ih =>
    obtain ⟨hp, hparts⟩ := forall_mem_cons.1 hparts
    have hsplit : entriesAt (p :: parts) k = (p.2.filter (·.1 = k)).flatMap (·.2) ++ entriesAt parts k := by
      rw [entriesAt, flatMap_cons, filter_append, flatMap_append]
      rfl
    rw [hsplit, filter_append, map_append, ih hparts, hp.maps k hshown]
    by_cases hkey : key ∈ q.valuesIn runtime p.1 k
    · rw [if_pos hkey, filter_cons_of_pos (by simpa using hkey)]
      rfl
    · rw [if_neg hkey, filter_cons_of_neg (by simpa using hkey)]
      rfl

end

/-! ## Merged buckets -/

/-- What a bucket is merged to. -/
def mergedAt (q : TopNQuery (List LiveAggregator)) (legacy : Bool) (aggregations : List AggregatorSpec)
    (parts : List (TypedSegment × List (ℤ × List (GroupKey × Event)))) (k : ℤ) : List JsonMap :=
  (classes (dimKey q.dimension.outputName) ((entriesAt parts k).map (·.2))).map fun c =>
    applyPostAggs q.postAggregations ((c.map Event.get).foldl (mergeAggMaps legacy aggregations) .empty)

section

variable (hplain : PlainOutputs q.dimension.outputName aggregations q.postAggregations) (hparts : ∀ p ∈ parts, IsPart runtime q legacy aggregations p)
include hplain hparts

theorem classes_entriesAt (k : ℤ) :
    classes (dimKey q.dimension.outputName) ((entriesAt parts k).map (·.2)) =
    (classes (fun x => textOf x.1) (entriesAt parts k)).map (List.map (·.2)) := by
  rw [classes_map]
  refine congrArg _ (classes_congr fun x hx => ?_)
  obtain ⟨p, -, -, -, hentry⟩ := mem_entriesAt hparts hx
  exact dimKey_of_isEntry hplain hentry

/-- Where different values have different texts, a bucket's entries are kept apart. -/
theorem keepsApart_entriesAt {k : ℤ}
    (hapart : ∀ key ∈ (entriesAt parts k).map (·.1), ∀ key' ∈ (entriesAt parts k).map (·.1), textOf key = textOf key' → key = key') :
    KeepsApart q.dimension.outputName ((entriesAt parts k).map (·.2)) := by
  rw [keepsApart_iff, ← sameKeys_iff]
  rintro a ha b hb
  obtain ⟨x, hx, rfl⟩ := mem_map.1 ha
  obtain ⟨y, hy, rfl⟩ := mem_map.1 hb
  obtain ⟨p, -, -, -, hx'⟩ := mem_entriesAt hparts hx
  obtain ⟨p', -, -, -, hy'⟩ := mem_entriesAt hparts hy
  rw [dimKey_of_isEntry hplain hx', dimKey_of_isEntry hplain hy', get_of_isEntry hplain hx', get_of_isEntry hplain hy', Option.some.injEq]
  constructor
  · intro h
    rw [hapart _ (mem_map_of_mem hx) _ (mem_map_of_mem hy) h]
  · intro h
    rw [textOf_eq, textOf_eq, h]

theorem length_mergedAt (k : ℤ) : (mergedAt q legacy aggregations parts k).length = (firsts (((entriesAt parts k).map (·.1)).map textOf)).length := by
  rw [mergedAt, length_map, classes_entriesAt hplain hparts, length_map, classes, length_map, map_map]
  rfl

/-- Where different values have different texts, a bucket is merged value by value. -/
theorem mergedAt_eq {k : ℤ} (hapart : ∀ key ∈ (entriesAt parts k).map (·.1), ∀ key' ∈ (entriesAt parts k).map (·.1),
    textOf key = textOf key' → key = key')
    (hrows : HasRowsOf runtime q whole (parts.map (·.1)))
    (hwithin : ∀ key, ∀ spec ∈ aggregations, WithinFloat legacy spec.kind
      (parts.map fun p => (rowsOf runtime q p.1 k key).map (spec.fed legacy))) :
    mergedAt q legacy aggregations parts k = (firsts ((entriesAt parts k).map (·.1))).map fun key =>
      valueMapOf legacy q.dimension.outputName aggregations q.postAggregations key (rowsOf runtime q whole k key) := by
  have hclasses : classes (fun x : GroupKey × Event => textOf x.1) (entriesAt parts k) = classes (·.1) (entriesAt parts k) :=
    classes_eq_iff.2 fun x hx y hy => ⟨hapart _ (mem_map_of_mem hx) _ (mem_map_of_mem hy), congrArg textOf⟩
  rw [mergedAt, classes_entriesAt hplain hparts, hclasses, classes, map_map, map_map]
  refine map_congr_left fun key hkey => ?_
  obtain ⟨⟨p, hp, hvalue⟩, hshown⟩ := (mem_keys_entriesAt hparts).1 (mem_firsts.1 hkey)
  have hempty : ∀ p ∈ parts, decide (key ∈ q.valuesIn runtime p.1 k) = false → rowsOf runtime q p.1 k key = [] := fun p _ hnot => by
    have hfed := (not_congr mem_valuesIn).1 (of_decide_eq_false hnot)
    rw [rowsOf, not_not.1 hfed, map_nil]
  have hall : (rowsOf runtime q whole k key).Perm
      (((parts.filter fun p => key ∈ q.valuesIn runtime p.1 k).map fun p => rowsOf runtime q p.1 k key).flatten) := by
    rw [flatten_map_filter hempty, ← flatMap_def]
    have hperm := rowsOf_perm hrows k key
    rwa [flatMap_map] at hperm
  have hgroup : ∀ spec ∈ aggregations, WithinFloat legacy spec.kind
      (((parts.filter fun p => key ∈ q.valuesIn runtime p.1 k).map fun p => rowsOf runtime q p.1 k key).map (·.map (spec.fed legacy))) := by
    intro spec hspec
    rw [map_map]
    exact (hwithin key spec hspec).filter fun p hp hnot => by rw [hempty p hp hnot, map_nil]
  have hmaps : ((entriesAt parts k).filter (·.1 = key)).map (fun x => x.2.get) =
      ((parts.filter fun p => key ∈ q.valuesIn runtime p.1 k).map fun p => rowsOf runtime q p.1 k key).map
        (valueMapOf legacy q.dimension.outputName aggregations q.postAggregations key) := by
    rw [maps_entriesAt hparts k hshown, map_map]
    rfl
  simp only [Function.comp_apply, map_map]
  rw [show ((entriesAt parts k).filter (·.1 = key)).map (Event.get ∘ (·.2)) = _ from hmaps, valueMapOf, rowsMap_perm hall, ← valueMapOf]
  cases hlist : (parts.filter fun p => key ∈ q.valuesIn runtime p.1 k).map fun p => rowsOf runtime q p.1 k key with
  | nil =>
    have hnil := map_eq_nil_iff.1 hlist
    exact absurd (mem_filter.2 ⟨hp, decide_eq_true hvalue⟩) (hnil ▸ not_mem_nil)
  | cons first rest =>
    rw [hlist] at hgroup
    exact merged_dimension_value hplain first rest hgroup

end

/-! ## All rows -/

theorem bucketTimestamp_all (calendar : Calendar) (ts : Int64) {granularity : GranularitySpec} (h : isAllGranularity granularity = true) :
    bucketTimestamp calendar ts granularity = 0 := by
  cases granularity with
  | simple s =>
    obtain rfl : s = "all" := of_decide_eq_true h
    rfl
  | full g => cases h

theorem bucketKey_of_passingRows {segment : TypedSegment} {rows : List (Int64 × ℕ)} {row : JsonMap} {p : PassingRow}
    (hp : p ∈ q.passingRows runtime segment rows row) : ∃ ts, p.bucketKey = bucketTimestamp runtime.time.calendar ts q.granularity := by
  induction rows generalizing row with
  | nil => cases hp
  | cons r rows ih =>
    rw [passingRows] at hp
    split_ifs at hp
    · exact ih hp
    · dsimp only at hp
      split_ifs at hp
      · rcases mem_cons.1 hp with rfl | hp
        · exact ⟨_, rfl⟩
        · exact ih hp
      · exact ih hp

/-- Buckets are told apart by their times. -/
theorem bucketTime_inj (hformat : Function.Injective runtime.time.formatEpochMillis) {segment segment' : TypedSegment} {k k' : ℤ} {key key' : GroupKey}
    (hk : key ∈ q.valuesIn runtime segment k) (hk' : key' ∈ q.valuesIn runtime segment' k') (h : q.bucketTime runtime k = q.bucketTime runtime k') :
    k = k' := by
  by_cases hall : isAllGranularity q.granularity = true
  · have hzero : ∀ {segment : TypedSegment} {k : ℤ} {key : GroupKey}, key ∈ q.valuesIn runtime segment k → k = 0 := fun hk => by
      rw [valuesIn, mem_firsts] at hk
      obtain ⟨e, he, -⟩ := mem_map.1 hk
      obtain ⟨he, hbucket⟩ := mem_filter.1 he
      obtain ⟨p, hp, he⟩ := mem_flatMap.1 he
      obtain ⟨key, -, rfl⟩ := mem_map.1 he
      obtain ⟨ts, hts⟩ := bucketKey_of_passingRows hp
      rw [← of_decide_eq_true hbucket, hts, bucketTimestamp_all _ _ hall]
    rw [hzero hk, hzero hk']
  · have hanchor : q.allGranularityAnchor = none := if_neg hall
    rw [bucketTime, bucketTime, hanchor] at h
    exact hformat h

theorem exists_parts (haggs : q.aggregators = integerAggregators legacy aggregations)
    (hplain : PlainOutputs q.dimension.outputName aggregations q.postAggregations) {maxInflight : ℕ} {partials : List (List TopNResult)}
    (hruns : List.Forall₂ (fun segment results => q.RowPath runtime segment maxInflight (.ok results)) segments partials)
    (hroom : ∀ segment ∈ segments, ∀ k, (q.valuesIn runtime segment k).length ≤ q.threshold) :
    ∃ parts : List (TypedSegment × List (ℤ × List (GroupKey × Event))), parts.map (·.1) = segments ∧
      partials = parts.map (fun p => p.2.map fun x => (⟨q.bucketTime runtime x.1, x.2.map (·.2)⟩ : TopNResult)) ∧
      ∀ p ∈ parts, IsPart runtime q legacy aggregations p := by
  induction hruns with
  | nil => exact ⟨[], rfl, rfl, by simp⟩
  | cons hrun _ ih =>
    obtain ⟨hfirst, hroom⟩ := forall_mem_cons.1 hroom
    obtain ⟨tagged, rfl, hnodup, hmem, htagged⟩ := rowPath_tagged haggs hplain hrun hfirst
    obtain ⟨parts, rfl, rfl, hparts⟩ := ih hroom
    exact ⟨(_, tagged) :: parts, rfl, rfl, forall_mem_cons.2 ⟨⟨hnodup, hmem, htagged⟩, hparts⟩⟩

/-- Integer aggregations always have a result. -/
theorem exists_entriesOf (haggs : q.aggregators = integerAggregators legacy aggregations) (dimAggs : HashMap GroupKey (List LiveAggregator)) :
    ∃ entries, q.entriesOf runtime dimAggs = .ok entries := by
  have hentry : ∀ e : GroupKey × List LiveAggregator, ∃ entry, q.entryOf runtime e = .ok entry := fun e => by
    unfold entryOf
    rw [haggs]
    exact ⟨_, rfl⟩
  choose entry hentry using hentry
  exact ⟨_, mapM_of_ok fun e _ => hentry (e.1, e.2)⟩

section

variable (hparts : ∀ p ∈ parts, IsPart runtime q legacy aggregations p) (hrows : HasRowsOf runtime q whole (parts.map (·.1)))
include hparts hrows

theorem mem_entriesAt_whole (k : ℤ) (key : GroupKey) :
    key ∈ (entriesAt parts k).map (·.1) ↔ key ∈ q.valuesIn runtime whole k ∧ q.shown runtime key = true := by
  rw [mem_keys_entriesAt hparts, mem_valuesIn_whole hrows]
  simp

variable (haggs : q.aggregators = integerAggregators legacy aggregations) (hplain : PlainOutputs q.dimension.outputName aggregations q.postAggregations)
include haggs hplain

/-- The entries of all rows are those of the values, in some order. -/
theorem whole_perm {b : Buckets (List LiveAggregator)} (hflat : Flat b (q.groups runtime whole)) {k : ℤ}
    {entries : List (TopNEntry (GroupKey × List LiveAggregator))} (hentries : q.entriesOf runtime (b.dimAggs.getD k ∅) = .ok entries) :
    ((applyPreviousStop q.metric entries).map fun e => (q.emitted e).get).Perm
      ((firsts ((entriesAt parts k).map (·.1))).map fun key =>
        valueMapOf legacy q.dimension.outputName aggregations q.postAggregations key (rowsOf runtime q whole k key)) := by
  have htagged := taggedBucket_of_perm haggs hplain hflat hentries (.refl _)
  have hmaps : ((applyPreviousStop q.metric entries).map fun e => (q.emitted e).get) =
      (((applyPreviousStop q.metric entries).map fun e => (e.payload.1, e.event)).map (·.1)).map fun key =>
        valueMapOf legacy q.dimension.outputName aggregations q.postAggregations key (rowsOf runtime q whole k key) := by
    rw [map_map, map_map]
    refine map_congr_left fun e he => ?_
    have hentry := htagged.entry _ (mem_map_of_mem he)
    rw [emitted, haggs]
    exact hentry.get
  rw [hmaps]
  refine List.Perm.map _ ((perm_ext_iff_of_nodup htagged.nodup (nodup_firsts _)).2 fun key => ?_)
  rw [htagged.mem, mem_firsts, mem_entriesAt_whole hparts hrows]

end

/-- Entries of a bucket are merged value by value for any outputs exactly if the
texts they are held under are apart. With integer aggregations over the rows of
one segment in many, that is so and the merged entries are those of all rows
exactly if in no bucket two values have no text. -/
theorem mergeTopN_keeps_values_apart_iff (haggs : q.aggregators = integerAggregators legacy aggregations)
    (hplain : PlainOutputs q.dimension.outputName aggregations q.postAggregations)
    (hformat : Function.Injective runtime.time.formatEpochMillis) (hrows : HasRowsOf runtime q whole segments)
    (hwithin : ∀ k key, ∀ spec ∈ aggregations, WithinFloat legacy spec.kind
      (segments.map fun segment => (rowsOf runtime q segment k key).map (spec.fed legacy)))
    (hroom : ∀ segment ∈ segments, ∀ k, (q.valuesIn runtime segment k).length ≤ q.threshold)
    {maxInflight : ℕ} {partials : List (List TopNResult)}
    (hruns : List.Forall₂ (fun segment results => q.RowPath runtime segment maxInflight (.ok results)) segments partials)
    {b : Buckets (List LiveAggregator)} (hwhole : q.buckets runtime whole maxInflight = .ok b)
    {maxMerged : ℕ} {merged : List (String × List JsonMap)} (hmerged : mergedEntries legacy aggregations q maxMerged partials = .ok merged) :
    (∀ entries : List Event, KeepsApart q.dimension.outputName entries ↔ TextsApart q.dimension.outputName entries) ∧
      ((∀ bucket ∈ bucketMap partials, KeepsApart q.dimension.outputName bucket.2) ∧ SameEntries runtime q b merged ↔ ValuesApart runtime q whole) := by
  refine ⟨keepsApart_iff _, ?_⟩
  have hflat := flat_of_buckets hwhole
  obtain ⟨parts, rfl, rfl, hparts⟩ := exists_parts haggs hplain hruns hroom
  have hinj : ∀ k ∈ bucketsOf parts, ∀ k' ∈ bucketsOf parts, q.bucketTime runtime k = q.bucketTime runtime k' → k = k' := fun k hk k' hk' h => by
    obtain ⟨p, -, key, hkey⟩ := (mem_bucketsOf hparts).1 hk
    obtain ⟨p', -, key', hkey'⟩ := (mem_bucketsOf hparts).1 hk'
    exact bucketTime_inj hformat hkey hkey' h
  have hbuckets : ∀ k, k ∈ bucketsOf parts ↔ k ∈ b.dimAggs.keys := fun k => by
    have hkeys : k ∈ bucketKeys b ↔ k ∈ b.dimAggs.keys := by
      rw [bucketKeys, mem_foldl_insertKey, or_iff_left not_mem_nil]
    rw [← hkeys, hflat.mem_bucketKeys, mem_bucketsOf hparts]
    simp only [← mem_valuesIn, mem_valuesIn_whole hrows]
    simp only [mem_map, exists_exists_and_eq_and]
    constructor
    · rintro ⟨p, hp, key, hkey⟩
      exact ⟨key, p, hp, hkey⟩
    · rintro ⟨key, p, hp, hkey⟩
      exact ⟨p, hp, key, hkey⟩
  have hmergedAt : merged = (bucketsOf parts).map fun k => (q.bucketTime runtime k, mergedAt q legacy aggregations parts k) := by
    obtain ⟨buckets, hmerge, hmerged⟩ := bind_eq_ok.1 hmerged
    rw [bucketMap_parts hinj] at hmerge
    obtain rfl := mergeBuckets_eq hmerge
    cases hmerged
    rw [map_map, map_map]
    refine map_congr_left fun k _ => Prod.ext rfl ?_
    simp only [Function.comp_apply, map_map]
    rfl
  rw [bucketMap_parts hinj, hmergedAt]
  constructor
  · rintro ⟨-, -, hsame⟩ k key hkey key' hkey' hshown hshown' htext htext'
    have hk : k ∈ bucketsOf parts := (mem_bucketsOf hparts).2 (by
      obtain ⟨segment, hsegment, hin⟩ := (mem_valuesIn_whole hrows k key).1 hkey
      obtain ⟨p, hp, rfl⟩ := mem_map.1 hsegment
      exact ⟨p, hp, key, hin⟩)
    obtain ⟨entries, hentries⟩ := exists_entriesOf haggs (b.dimAggs.getD k ∅)
    have hperm := hsame k ((hbuckets k).1 hk) entries hentries _ (mem_map_of_mem hk)
    have hlen := (hperm.trans (whole_perm hparts hrows haggs hplain hflat hentries)).length_eq
    rw [length_mergedAt hplain hparts, length_map] at hlen
    exact eq_of_length_firsts hlen key ((mem_entriesAt_whole hparts hrows k key).2 ⟨hkey, hshown⟩) key'
      ((mem_entriesAt_whole hparts hrows k key').2 ⟨hkey', hshown'⟩) (htext.trans htext'.symm)
  · intro happart
    have hapart : ∀ k, ∀ key ∈ (entriesAt parts k).map (·.1), ∀ key' ∈ (entriesAt parts k).map (·.1), textOf key = textOf key' → key = key' := by
      intro k key hkey key' hkey'
      obtain ⟨hkey, hshown⟩ := (mem_entriesAt_whole hparts hrows k key).1 hkey
      obtain ⟨hkey', hshown'⟩ := (mem_entriesAt_whole hparts hrows k key').1 hkey'
      exact eq_of_textOf (happart k key hkey key' hkey' hshown hshown')
    refine ⟨fun bucket hbucket => ?_, ?_, fun k hk entries hentries maps hmaps => ?_⟩
    · obtain ⟨k, -, rfl⟩ := mem_map.1 hbucket
      exact keepsApart_entriesAt hplain hparts (hapart k)
    · rw [map_map]
      exact ((perm_ext_iff_of_nodup (nodup_firsts _) (AList.keys_nodup _)).2 hbuckets).map _
    · obtain ⟨k', hk', heq⟩ := mem_map.1 hmaps
      obtain ⟨htime, rfl⟩ := Prod.mk.inj heq
      obtain rfl := hinj k' hk' k ((hbuckets k).2 hk) htime
      rw [mergedAt_eq hplain hparts (hapart k') hrows fun key spec hspec => by simpa only [map_map, Function.comp_def] using hwithin k' key spec hspec]
      exact (whole_perm hparts hrows haggs hplain hflat hentries).symm

/-! ## Numbers -/

/-- A segment of one dimension, all at one time. -/
def ofCells (cells : List Json) : TypedSegment where
  numRows := cells.length
  dimensions := ["dim"]
  metrics := []
  timestamps := cells.map fun _ => 0
  row rowIdx name :=
    if name = "__time" then some (((cells.map fun _ => (0 : Int64))[rowIdx]?.map Json.ofI64).getD .null)
    else if name = "dim" then some (cells[rowIdx]?.getD .null) else none
  timed rowIdx ts h := by simp only [if_pos, h, Option.map_some, Option.getD_some]
  multiValue _ := false
  longColumn _ := none
  timeSorted := false
  uniform rowIdx rowIdx' name h := by split_ifs at h ⊢; rfl
  longs _ _ h := absurd h nofun
  sorted h := absurd h nofun

def twoHoursTopN : TopNRuntime := { plainTopNRuntime with time := twoHours }

/-- Rows are counted for each value of the dimension. -/
def countByDim : TopNQuery (List LiveAggregator) where
  intervals := []
  granularity := .simple "all"
  dimension := .default "dim" "dim" .string
  threshold := 2
  metric := .numeric "rows"
  filter := none
  virtualColumns := .none
  aggregators := integerAggregators false [⟨"rows", .count, ""⟩]
  postAggregations := []

/-- The row of a value, counted. -/
def counted (value : Json) (n : Int64) : Event := [("dim", value), ("rows", .ofI64 n)]

theorem sortsTo_singleton {τ : Type} (name : String) (e : TopNEntry τ) : SortsTo (.numeric name) [e] [e] := ⟨.refl _, fun _ => pairwise_singleton _ _⟩

/-- The letter a. -/
def letter : Utf8 := ⟨[0x61], Eq.refl true⟩

/-- Rows of a letter have one row map. -/
theorem hasRowsOf_letters : HasRowsOf twoHoursTopN countByDim (ofCells [.string letter, .string letter])
    [ofCells [.string letter], ofCells [.string letter]] := by
  have hfirst : TimeseriesQuery.updateRow ((ofCells [.string letter, .string letter]).row 0) .empty =
      TimeseriesQuery.updateRow ((ofCells [.string letter]).row 0) .empty := rfl
  have hsecond : TimeseriesQuery.updateRow ((ofCells [.string letter, .string letter]).row 1)
      (TimeseriesQuery.updateRow ((ofCells [.string letter, .string letter]).row 0) .empty) =
        TimeseriesQuery.updateRow ((ofCells [.string letter]).row 0) .empty := by
    funext name
    by_cases htime : name = "__time"
    · simp [TimeseriesQuery.updateRow, ofCells, htime]
    · by_cases hdim : name = "dim"
      · simp [TimeseriesQuery.updateRow, ofCells, hdim]
      · simp [TimeseriesQuery.updateRow, ofCells, htime, hdim]
  exact .of_eq (congrArg₂ (fun r s : JsonMap => [((0 : ℤ), r), (0, s)]) hfirst hsecond)

/-- One value, counted in two segments. -/
theorem countByDim_merges_text :
    ∃ partials merged b, List.Forall₂ (fun segment results => countByDim.RowPath twoHoursTopN segment 0 (.ok results))
        [ofCells [.string letter], ofCells [.string letter]] partials ∧
      countByDim.buckets twoHoursTopN (ofCells [.string letter, .string letter]) 0 = .ok b ∧
      mergedEntries false [⟨"rows", .count, ""⟩] countByDim 0 partials = .ok merged ∧
      (∀ bucket ∈ bucketMap partials, KeepsApart "dim" bucket.2) ∧ SameEntries twoHoursTopN countByDim b merged := by
  have hruns : List.Forall₂ (fun segment results => countByDim.RowPath twoHoursTopN segment 0 (.ok results))
      [ofCells [.string letter], ofCells [.string letter]]
      [[⟨twoHours.formatEpochMillis 0, [counted (.string letter) 1]⟩], [⟨twoHours.formatEpochMillis 0, [counted (.string letter) 1]⟩]] :=
    .cons ⟨_, rfl, .cons ⟨_, _, rfl, sortsTo_singleton _ _, rfl⟩ .nil⟩ (.cons ⟨_, rfl, .cons ⟨_, _, rfl, sortsTo_singleton _ _, rfl⟩ .nil⟩ .nil)
  obtain ⟨merged, hmerged⟩ : ∃ merged, mergedEntries false [⟨"rows", .count, ""⟩] countByDim 0
      [[⟨twoHours.formatEpochMillis 0, [counted (.string letter) 1]⟩], [⟨twoHours.formatEpochMillis 0, [counted (.string letter) 1]⟩]] =
        .ok merged := ⟨_, rfl⟩
  obtain ⟨b, hwhole⟩ : ∃ b, countByDim.buckets twoHoursTopN (ofCells [.string letter, .string letter]) 0 = .ok b := ⟨_, rfl⟩
  refine ⟨_, merged, b, hruns, hwhole, hmerged, (mergeTopN_keeps_values_apart_iff rfl
    ⟨by decide, fun pa hpa => absurd hpa not_mem_nil, fun pa hpa => absurd hpa not_mem_nil⟩ formatTwoHours_injective hasRowsOf_letters
    (fun k key spec hspec => ?_) (fun segment hsegment k => ?_) hruns hwhole hmerged).2.2 fun k key hkey key' hkey' _ _ htext _ => ?_⟩
  · obtain rfl := mem_singleton.1 hspec
    refine withinFloat_count ?_
    have hlen : (rowsOf twoHoursTopN countByDim (ofCells [.string letter]) k key).length ≤ 1 := by
      rw [rowsOf, fedRows, length_map, length_map]
      exact length_filter_le _ (countByDim.feeds twoHoursTopN (ofCells [.string letter]))
    simp only [map_cons, map_nil, flatten_cons, flatten_nil, length_append, length_map, length_nil]
    omega
  · have hfeeds : (countByDim.feeds twoHoursTopN segment).length = 1 := by
      revert segment
      simp only [forall_mem_cons]
      exact ⟨rfl, rfl, by simp⟩
    have hlen : (countByDim.valuesIn twoHoursTopN segment k).length ≤ 1 := by
      refine (length_firsts_le _).trans ?_
      rw [length_map, ← hfeeds]
      exact length_filter_le _ _
    exact hlen.trans (by decide)
  · rw [valuesIn, mem_firsts] at hkey
    obtain ⟨e, he, rfl⟩ := mem_map.1 hkey
    have hin : e.2 ∈ (countByDim.feeds twoHoursTopN (ofCells [.string letter, .string letter])).map (·.2) := mem_map_of_mem (mem_of_mem_filter he)
    have hletter : e.2 ∈ [GroupKey.string letter, .string letter] := hin
    rw [show e.2 = .string letter by simpa using hletter] at htext
    exact absurd htext (by decide)

/-- Two numbers are held under the empty text. -/
theorem countByDim_collapses_numbers :
    ∃ partials merged b, List.Forall₂ (fun segment results => countByDim.RowPath twoHoursTopN segment 0 (.ok results))
        [ofCells [.ofI64 1], ofCells [.ofI64 2]] partials ∧
      countByDim.buckets twoHoursTopN (ofCells [.ofI64 1, .ofI64 2]) 0 = .ok b ∧
      mergedEntries false [⟨"rows", .count, ""⟩] countByDim 0 partials = .ok merged ∧
      (¬ ∀ bucket ∈ bucketMap partials, KeepsApart "dim" bucket.2) ∧ ¬ SameEntries twoHoursTopN countByDim b merged := by
  refine ⟨[[⟨twoHours.formatEpochMillis 0, [counted (.ofI64 1) 1]⟩], [⟨twoHours.formatEpochMillis 0, [counted (.ofI64 2) 1]⟩]], _, _,
    .cons ⟨_, rfl, .cons ⟨_, _, rfl, sortsTo_singleton _ _, rfl⟩ .nil⟩ (.cons ⟨_, rfl, .cons ⟨_, _, rfl, sortsTo_singleton _ _, rfl⟩ .nil⟩ .nil),
    rfl, rfl, fun h => ?_, fun h => ?_⟩
  · have hapart := (keepsApart_iff _ _).1 (h _ mem_cons_self)
    have hnot : ∀ n : Int64, ¬ IsText ((counted (.ofI64 n) 1).get "dim") := fun n ⟨s, hs⟩ => by cases hs
    have hsame := (hapart.standIn (counted (.ofI64 1) 1) mem_cons_self (counted (.ofI64 2) 1)
      (mem_cons_of_mem _ mem_cons_self) (hnot 1) (hnot 2)).1 rfl
    exact absurd hsame (by decide)
  · have hperm := h.2 0 (by decide) _ rfl _ mem_cons_self
    exact absurd hperm.length_eq (by decide)

end FerroDruid.Broker
