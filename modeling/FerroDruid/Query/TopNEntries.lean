import FerroDruid.Query.TopNGroups
/-!
# Entries of a TopN query

What the row path makes of a group under integer aggregations: a map of the
dimension value, the results of the aggregations over the rows of the group, and
post-aggregations of these.
-/

namespace FerroDruid.Query

open Lib Aggregator List

/-! ## Maps -/

/-- A field as a post-aggregation that reads nothing. -/
def dimensionField (dimOut : String) (value : Json) : PostAggregator := ⟨dimOut, .ok (), fun _ => value⟩

/-- Outputs are under names of their own, post-aggregations read aggregations only,
and none is a text. -/
structure PlainOutputs (dimOut : String) (aggregations : List AggregatorSpec) (postAggs : List PostAggregator) : Prop where
  dimension : ∀ spec ∈ aggregations, spec.name ≠ dimOut
  posts : ∀ pa ∈ postAggs, pa.name ≠ dimOut ∧ ∀ m s, pa.evaluate m ≠ .string s
  plain : PlainPostAggs aggregations postAggs

/-- The map of a dimension value over its rows. -/
def valueMapOf (legacy : Bool) (dimOut : String) (aggregations : List AggregatorSpec) (postAggs : List PostAggregator) (key : GroupKey)
    (rows : List JsonMap) : JsonMap :=
  applyPostAggs (dimensionField dimOut key.toJson :: postAggs) (rowsMap legacy aggregations rows)

section

variable {legacy : Bool} {dimOut : String} {aggregations : List AggregatorSpec} {postAggs : List PostAggregator}

section

variable (h : PlainOutputs dimOut aggregations postAggs)

include h

theorem PlainOutputs.cons (v : Json) : PlainPostAggs aggregations (dimensionField dimOut v :: postAggs) :=
  forall_mem_cons.2 ⟨⟨h.dimension, fun _ _ _ => rfl⟩, h.plain⟩

theorem applyPostAggs_dimension (v : Json) (m : JsonMap) :
    applyPostAggs postAggs (m.insert dimOut v) = applyPostAggs (dimensionField dimOut v :: postAggs) m := by
  refine foldl_ext _ _ _ fun acc pa hpa => ?_
  rw [(h.plain pa hpa).2 (m.insert dimOut v) m fun spec hspec => JsonMap.insert_of_ne _ _ (h.dimension spec hspec)]

theorem valueMapOf_dimension (key : GroupKey) (rows : List JsonMap) :
    valueMapOf legacy dimOut aggregations postAggs key rows dimOut = some key.toJson := by
  rcases foldl_insert_apply (·.evaluate _) postAggs ((rowsMap legacy aggregations rows).insert dimOut key.toJson) dimOut
    with ⟨-, heq⟩ | ⟨pa, hpa, hname, -⟩
  · exact heq.trans (JsonMap.insert_self ..)
  · exact absurd hname (h.posts pa hpa).1

end

theorem JsonMap.insert_comm (m : JsonMap) {a b : String} (h : a ≠ b) (v w : Json) : (m.insert a v).insert b w = (m.insert b w).insert a v := by
  funext key
  unfold JsonMap.insert
  split_ifs with hb ha
  · exact absurd (ha.symm.trans hb) h
  · rfl
  · rfl
  · rfl

theorem foldl_insert_comm (fields : List (String × Json)) {name : String} (h : ∀ field ∈ fields, field.1 ≠ name) (v : Json) (m : JsonMap) :
    fields.foldl (fun m field => m.insert field.1 field.2) (m.insert name v) =
      (fields.foldl (fun m field => m.insert field.1 field.2) m).insert name v := by
  induction fields generalizing m with
  | nil => rfl
  | cons field fields ih =>
    obtain ⟨hfield, h⟩ := forall_mem_cons.1 h
    rw [foldl_cons, foldl_cons, JsonMap.insert_comm _ (Ne.symm hfield), ih h]

end

/-! ## Entries -/

/-- The entry of a dimension value over its rows: their map, with no text but the value. -/
structure IsEntry (legacy : Bool) (dimOut : String) (aggregations : List AggregatorSpec) (postAggs : List PostAggregator) (key : GroupKey)
    (rows : List JsonMap) (event : Event) : Prop where
  get : event.get = valueMapOf legacy dimOut aggregations postAggs key rows
  texts : ∀ field ∈ event, field = (dimOut, key.toJson) ∨ ∀ s, field.2 ≠ .string s

theorem get_ne_string (legacy : Bool) (a : LiveAggregator) (s : Utf8) : a.get legacy ≠ .string s := by
  cases a with
  | count a => simp [LiveAggregator.get, CountAggregator.get, Json.ofI64]
  | longSum a => cases hseen : a.seen <;> cases legacy <;> simp [LiveAggregator.get, LongSumAggregator.get, hseen, Json.ofI64]
  | longMin a | longMax a => cases hseen : a.seen <;> cases legacy <;> simp [LiveAggregator.get, MinMaxAggregator.get, hseen, Json.ofI64]

theorem Event.mem_insertAll {m : Event} {fields : List (String × Json)} {field : String × Json} (h : field ∈ m.insertAll fields) :
    field ∈ m ∨ field ∈ fields := by
  induction fields generalizing m with
  | nil => exact .inl h
  | cons first fields ih =>
    rcases ih h with hm | hfields
    · rcases Event.mem_insert hm with hm | rfl
      · exact .inl hm
      · exact .inr mem_cons_self
    · exact .inr (mem_cons_of_mem _ hfields)

namespace TopNQuery

variable {runtime : TopNRuntime} {q : TopNQuery (List LiveAggregator)} {legacy : Bool} {aggregations : List AggregatorSpec}
  (haggs : q.aggregators = integerAggregators legacy aggregations)
  (hplain : PlainOutputs q.dimension.outputName aggregations q.postAggregations)
include haggs hplain

theorem entryOf_rows (key : GroupKey) (ps : List PassingRow) {e : TopNEntry (GroupKey × List LiveAggregator)}
    (he : q.entryOf runtime (key, ps.foldl q.aggregators.feed q.aggregators.create) = .ok e) :
    e.payload.1 = key ∧ e.sortKey = key.asSortKey runtime.displayF64 ∧
      IsEntry legacy q.dimension.outputName aggregations q.postAggregations key (ps.map (·.row)) e.event := by
  have hstate : ps.foldl q.aggregators.feed q.aggregators.create =
      aggregations.map fun spec => ((ps.map (·.row)).map (spec.fed legacy)).foldl (fun a value => a.aggregate value) (.create spec.kind) := by
    rw [haggs, ← foldl_feedRow, foldl_map]
    rfl
  have hfields : (aggregations.zip (ps.foldl q.aggregators.feed q.aggregators.create)).map (fun e => (e.1.name, e.2.get legacy)) =
      aggregations.map fun spec => (spec.name, run legacy spec.kind ((ps.map (·.row)).map (spec.fed legacy))) := by
    rw [hstate, zip_map_right, map_map, List.zip, zipWith_self, map_map]
    exact map_congr_left fun spec _ => Prod.ext rfl (LiveAggregator.get_foldl ..)
  have hfinalize : q.aggregators.finalize (ps.foldl q.aggregators.feed q.aggregators.create) =
      .ok (aggregations.map fun spec => (spec.name, run legacy spec.kind ((ps.map (·.row)).map (spec.fed legacy)))) := by
    rw [← hfields, haggs]
    rfl
  have hmap : (Event.insertAll [(q.dimension.outputName, key.toJson)]
      (aggregations.map fun spec => (spec.name, run legacy spec.kind ((ps.map (·.row)).map (spec.fed legacy))))).get =
        (rowsMap legacy aggregations (ps.map (·.row))).insert q.dimension.outputName key.toJson := by
    rw [Event.get_insertAll, rowsMap, valueMap]
    have hfirst : Event.get [(q.dimension.outputName, key.toJson)] = JsonMap.empty.insert q.dimension.outputName key.toJson := by
      funext name
      rw [Event.get_cons, JsonMap.insert]
      simp only [eq_comm]
      rfl
    rw [hfirst, foldl_insert_comm _ (by simpa using hplain.dimension), foldl_map]
  simp only [entryOf, hfinalize, bind, Except.bind, Except.ok.injEq] at he
  subst he
  refine ⟨rfl, rfl, ?_, fun field hfield => ?_⟩
  · dsimp only
    rw [withPostAggs, Event.get_insertAll, foldl_map, hmap, valueMapOf, ← applyPostAggs_dimension hplain]
    rfl
  · rcases Event.mem_insertAll hfield with hfield | hfield
    · rcases Event.mem_insertAll hfield with hfield | hfield
      · exact .inl (mem_singleton.1 hfield)
      · obtain ⟨spec, -, rfl⟩ := mem_map.1 hfield
        refine .inr fun s => ?_
        rw [← LiveAggregator.get_foldl]
        exact get_ne_string _ _ _
    · obtain ⟨pa, hpa, rfl⟩ := mem_map.1 hfield
      exact .inr ((hplain.posts pa hpa).2 _)

variable {segment : TypedSegment} {b : Buckets (List LiveAggregator)}

/-- The entries of a bucket are those of its groups over their rows. -/
theorem entriesOf_rows (hflat : Flat b (q.groups runtime segment)) {k : ℤ}
    {entries : List (TopNEntry (GroupKey × List LiveAggregator))} (hentries : q.entriesOf runtime (b.dimAggs.getD k ∅) = .ok entries) :
    ∀ e ∈ entries, IsEntry legacy q.dimension.outputName aggregations q.postAggregations e.payload.1
      ((q.fedRows runtime segment k e.payload.1).map (·.row)) e.event := by
  intro e he
  obtain ⟨⟨key, s⟩, hx, hentry⟩ := exists_of_mapM hentries e he
  obtain ⟨-, rfl⟩ := hflat.lookup_eq_some.1 (AList.mem_lookup_iff.2 hx)
  obtain ⟨rfl, -, hentry⟩ := entryOf_rows haggs hplain key _ hentry
  exact hentry

/-- Values that are not behind the cursor. -/
def shown (runtime : TopNRuntime) (q : TopNQuery (List LiveAggregator)) (key : GroupKey) : Bool :=
  pastCursor q.metric (key.asSortKey runtime.displayF64)

/-- A bucket with its dimension values: each that is shown has the entry of its rows. -/
structure TaggedBucket (runtime : TopNRuntime) (q : TopNQuery (List LiveAggregator)) (segment : TypedSegment) (legacy : Bool)
    (aggregations : List AggregatorSpec) (k : ℤ) (tagged : List (GroupKey × Event)) : Prop where
  nodup : (tagged.map (·.1)).Nodup
  mem : ∀ key, key ∈ tagged.map (·.1) ↔ key ∈ q.valuesIn runtime segment k ∧ q.shown runtime key = true
  entry : ∀ x ∈ tagged, IsEntry legacy q.dimension.outputName aggregations q.postAggregations x.1
    ((q.fedRows runtime segment k x.1).map (·.row)) x.2

/-- A bucket that is not truncated, in any order. -/
theorem taggedBucket_of_perm (hflat : Flat b (q.groups runtime segment)) {k : ℤ}
    {entries listed : List (TopNEntry (GroupKey × List LiveAggregator))} (hentries : q.entriesOf runtime (b.dimAggs.getD k ∅) = .ok entries)
    (hlisted : listed.Perm (applyPreviousStop q.metric entries)) :
    q.TaggedBucket runtime segment legacy aggregations k (listed.map fun e => (e.payload.1, e.event)) := by
  rw [applyPreviousStop_eq] at hlisted
  have hkeys := sortKeys_of_entriesOf hentries
  have hvalues := congrArg (List.map Prod.fst) hkeys
  simp only [map_map, Function.comp_def, map_id'] at hvalues
  have hsort : ∀ e ∈ entries, e.sortKey = e.payload.1.asSortKey runtime.displayF64 := fun e he => by
    have hin := mem_map_of_mem (f := fun e => (e.payload.1, e.sortKey)) he
    rw [hkeys] at hin
    obtain ⟨key, -, heq⟩ := mem_map.1 hin
    rw [Prod.mk.injEq] at heq
    rw [← heq.1, ← heq.2]
  have hin : ∀ e ∈ listed, e ∈ entries := fun e he => mem_of_mem_filter (hlisted.mem_iff.1 he)
  refine ⟨?_, fun key => ?_, ?_⟩
  · rw [map_map]
    refine ((hlisted.map _).nodup_iff).2 ?_
    refine List.Nodup.sublist (filter_sublist.map _) ?_
    exact hvalues ▸ AList.keys_nodup _
  · rw [map_map, (hlisted.map _).mem_iff, mem_map, mem_valuesIn, ← hflat.mem_keys, ← hvalues]
    constructor
    · rintro ⟨e, he, rfl⟩
      obtain ⟨he, hpast⟩ := mem_filter.1 he
      exact ⟨mem_map_of_mem he, by rw [hsort e he] at hpast; exact hpast⟩
    · rintro ⟨hkey, hshown⟩
      obtain ⟨e, he, rfl⟩ := mem_map.1 hkey
      exact ⟨e, mem_filter.2 ⟨he, by rw [hsort e he]; exact hshown⟩, rfl⟩
  · intro x hx
    obtain ⟨e, he, rfl⟩ := mem_map.1 hx
    exact entriesOf_rows haggs hplain hflat hentries e (hin e he)

theorem taggedBucket_of_result (hflat : Flat b (q.groups runtime segment)) {k : ℤ}
    {result : TopNResult} (hresult : q.BucketResult runtime k (b.dimAggs.getD k ∅) result)
    (hroom : (q.valuesIn runtime segment k).length ≤ q.threshold) :
    ∃ tagged, q.TaggedBucket runtime segment legacy aggregations k tagged ∧ result = ⟨q.bucketTime runtime k, tagged.map (·.2)⟩ := by
  obtain ⟨entries, sorted, hentries, hsorted, rfl⟩ := hresult
  have hlen : entries.length ≤ q.threshold := by
    have hkeys := congrArg List.length (sortKeys_of_entriesOf hentries)
    rw [length_map, length_map, (hflat.keys_perm k).length_eq] at hkeys
    exact hkeys.trans_le hroom
  have hpage : pageOf q.metric q.threshold sorted = applyPreviousStop q.metric sorted := by
    rw [pageOf, take_of_length_le]
    rw [applyPreviousStop_eq]
    exact (length_filter_le _ _).trans (hsorted.perm.length_eq.trans_le hlen)
  have hlisted : (applyPreviousStop q.metric sorted).Perm (applyPreviousStop q.metric entries) := by
    rw [applyPreviousStop_eq, applyPreviousStop_eq]
    exact hsorted.perm.filter _
  refine ⟨_, taggedBucket_of_perm haggs hplain hflat hentries hlisted, ?_⟩
  rw [hpage, map_map]
  refine congrArg _ (map_congr_left fun e _ => ?_)
  rw [emitted, haggs]
  rfl

/-- What a segment returns when nothing is truncated. -/
theorem rowPath_tagged {maxInflight : ℕ} {results : List TopNResult}
    (hrun : q.RowPath runtime segment maxInflight (.ok results)) (hroom : ∀ k, (q.valuesIn runtime segment k).length ≤ q.threshold) :
    ∃ tagged : List (ℤ × List (GroupKey × Event)), results = tagged.map (fun x => ⟨q.bucketTime runtime x.1, x.2.map (·.2)⟩) ∧
      (tagged.map (·.1)).Nodup ∧ (∀ k, k ∈ tagged.map (·.1) ↔ ∃ key, key ∈ q.valuesIn runtime segment k) ∧
      ∀ x ∈ tagged, q.TaggedBucket runtime segment legacy aggregations x.1 x.2 := by
  obtain ⟨b, hb, hresults⟩ := hrun
  have hflat := flat_of_buckets hb
  have hnodup : (bucketKeys b).Nodup := (pairwise_foldl_insertKey .nil).nodup
  suffices h : ∃ tagged : List (ℤ × List (GroupKey × Event)), results = tagged.map (fun x => ⟨q.bucketTime runtime x.1, x.2.map (·.2)⟩) ∧
      tagged.map (·.1) = bucketKeys b ∧ ∀ x ∈ tagged, q.TaggedBucket runtime segment legacy aggregations x.1 x.2 by
    obtain ⟨tagged, hmap, hkeys, htagged⟩ := h
    refine ⟨tagged, hmap, hkeys ▸ hnodup, fun k => ?_, htagged⟩
    rw [hkeys, hflat.mem_bucketKeys]
    simp only [mem_valuesIn]
  generalize bucketKeys b = keys at hresults ⊢
  induction hresults with
  | nil => exact ⟨[], rfl, rfl, by simp⟩
  | cons hresult _ ih =>
    obtain ⟨tagged, htagged, rfl⟩ := taggedBucket_of_result haggs hplain hflat hresult (hroom _)
    obtain ⟨rest, rfl, hkeys, hrest⟩ := ih
    exact ⟨(_, tagged) :: rest, rfl, by rw [map_cons, hkeys], forall_mem_cons.2 ⟨htagged, hrest⟩⟩

end TopNQuery

end FerroDruid.Query
