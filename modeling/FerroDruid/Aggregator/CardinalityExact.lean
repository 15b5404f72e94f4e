import FerroDruid.Aggregator.Cardinality
/-!
# Exact cardinality over any gathering

An aggregator or an envelope stands for a set of keys. It holds the whole set or
it is flagged, and it is flagged only when the set is past the cap or something
that went into it was. Every operation keeps this, so the final answer is the
size of the union or no answer at all.
-/

namespace FerroDruid.Aggregator

open Lib List

/-! ## What an aggregator stands for -/

section

variable {K L : Finset Utf8}

theorem over_left (h : maxCardinalitySetSize < K.card) : maxCardinalitySetSize < (K ∪ L).card :=
  h.trans_le (Finset.card_le_card Finset.subset_union_left)

theorem over_right (h : maxCardinalitySetSize < L.card) : maxCardinalitySetSize < (K ∪ L).card :=
  h.trans_le (Finset.card_le_card Finset.subset_union_right)

end

namespace CardinalityAggregator

@[simp] theorem tryInsert_byRow (agg : CardinalityAggregator) (key : Utf8) : (agg.tryInsert key).byRow = agg.byRow := by
  unfold tryInsert
  split_ifs <;> rfl

@[simp] theorem tryInsert_rowParts (agg : CardinalityAggregator) (key : Utf8) : (agg.tryInsert key).rowParts = agg.rowParts := by
  unfold tryInsert
  split_ifs <;> rfl

@[simp] theorem foldl_tryInsert_byRow (ks : List Utf8) (agg : CardinalityAggregator) :
    (ks.foldl tryInsert agg).byRow = agg.byRow := by
  induction ks generalizing agg with
  | nil => rfl
  | cons k ks ih => rw [foldl_cons, ih, tryInsert_byRow]

@[simp] theorem foldl_tryInsert_rowParts (ks : List Utf8) (agg : CardinalityAggregator) :
    (ks.foldl tryInsert agg).rowParts = agg.rowParts := by
  induction ks generalizing agg with
  | nil => rfl
  | cons k ks ih => rw [foldl_cons, ih, tryInsert_rowParts]

variable {sha : Bytes → Digest} {text : Json → Utf8}

theorem foldl_fields (cells : List (Option Json × ℕ)) {agg : CardinalityAggregator} (h : agg.byRow = false) :
    cells.foldl (fun agg cell => agg.aggregateFieldAt sha text (fieldIndex cell.2) cell.1) agg =
      (cells.map fun cell => taggedKey sha (fieldIndex cell.2) (valueToKey sha text cell.1)).foldl tryInsert agg := by
  induction cells generalizing agg with
  | nil => rfl
  | cons cell cells ih =>
    rw [foldl_cons, map_cons, foldl_cons, ← ih (by rw [tryInsert_byRow, h]), aggregateFieldAt]
    simp [h]

theorem foldl_parts (cells : List (Option Json × ℕ)) {agg : CardinalityAggregator} (h : agg.byRow = true) :
    cells.foldl (fun agg cell => agg.aggregateFieldAt sha text (fieldIndex cell.2) cell.1) agg =
      { agg with rowParts := agg.rowParts ++ (cells.map (·.1)).map (valueToKey sha text) } := by
  induction cells generalizing agg with
  | nil => simp
  | cons cell cells ih =>
    rw [foldl_cons, aggregateFieldAt, if_pos h]
    refine (ih ?_).trans ?_
    · exact h
    · simp

/-- A row adds its keys and leaves nothing behind. -/
theorem aggregateRowValues_eq {agg : CardinalityAggregator} (hparts : agg.rowParts = []) (row : List (Option Json)) :
    agg.aggregateRowValues sha text row = (rowKeys sha text agg.byRow row).foldl tryInsert agg := by
  obtain ⟨seen, byRow, fields, parts, saturated, cap⟩ := agg
  subst hparts
  unfold aggregateRowValues rowKeys
  cases byRow with
  | false =>
    rw [foldl_fields _ rfl]
    simp
  | true =>
    rw [foldl_parts _ rfl, zipIdx_map_fst]
    simp only [if_true, nil_append, finishRow, true_and]
    by_cases hrow : row = []
    · simp [hrow]
    · rw [if_pos (by simpa using hrow), if_neg hrow, foldl_cons, foldl_nil]
      unfold tryInsert
      split_ifs <;> rfl

/-- It holds a set of keys, or is flagged: for what went into it, or for the
size of the set. -/
structure Holds (agg : CardinalityAggregator) (K : Finset Utf8) (bad : Prop) : Prop where
  cap : agg.cap = maxCardinalitySetSize
  flag : agg.saturated = true ↔ bad ∨ maxCardinalitySetSize < K.card
  seen : agg.saturated = false → agg.seen.toFinset = K
  short : ∀ k ∈ agg.seen.items, k.bytes.length ≤ maxWireValueBytes

variable {agg other : CardinalityAggregator} {K L : Finset Utf8} {bad worse : Prop}

theorem Holds.step (h : agg.Holds K bad) {key : Utf8} (hkey : key.bytes.length ≤ maxWireValueBytes) :
    (agg.tryInsert key).Holds (insert key K) bad := by
  have hmono : K.card ≤ (insert key K).card := Finset.card_le_card (Finset.subset_insert key K)
  have hstays : agg.saturated = true → (agg.saturated = true ↔ bad ∨ maxCardinalitySetSize < (insert key K).card) := fun hsat =>
    iff_of_true hsat ((h.flag.1 hsat).imp_right fun hover => hover.trans_le hmono)
  unfold tryInsert
  cases hsat : agg.saturated with
  | true =>
    rw [hsat] at hstays
    split_ifs with hmem hfull
    · exact ⟨h.cap, by rw [hsat]; exact hstays rfl, by simp [hsat], h.short⟩
    · exact ⟨h.cap, hstays rfl, by simp, h.short⟩
    · refine ⟨h.cap, by simpa using hstays, by simp, fun k hk => ?_⟩
      rcases HashSet.mem_insert.1 hk with rfl | hk
      · exact hkey
      · exact h.short k hk
  | false =>
    have hK := h.seen hsat
    have hgood : ¬ (bad ∨ maxCardinalitySetSize < K.card) := fun hflag => by
      rw [h.flag.2 hflag] at hsat
      cases hsat
    have hlen : agg.seen.len = K.card := by rw [← hK, HashSet.card_toFinset]
    have hmem : key ∈ agg.seen.items ↔ key ∈ K := by rw [← hK, HashSet.mem_toFinset]
    have hcap := h.cap
    split_ifs with hin hfull
    · rw [Finset.insert_eq_of_mem (hmem.1 hin)]
      exact h
    · have hcard := Finset.card_insert_of_notMem (fun hin' => hin (hmem.2 hin'))
      exact ⟨hcap, iff_of_true rfl (.inr (by omega)), by simp, h.short⟩
    · have hcard := Finset.card_insert_of_notMem (fun hin' => hin (hmem.2 hin'))
      refine ⟨hcap, ?_, fun _ => by rw [HashSet.toFinset_insert, hK], fun k hk => ?_⟩
      · refine iff_of_false Bool.false_ne_true fun hflag => ?_
        rcases hflag with hbad | hover
        · exact hgood (.inl hbad)
        · omega
      · rcases HashSet.mem_insert.1 hk with rfl | hk
        · exact hkey
        · exact h.short k hk

theorem Holds.steps (h : agg.Holds K bad) {ks : List Utf8} (hks : ∀ k ∈ ks, k.bytes.length ≤ maxWireValueBytes) :
    (ks.foldl tryInsert agg).Holds (K ∪ ks.toFinset) bad := by
  induction ks generalizing agg K with
  | nil => simpa using h
  | cons k ks ih =>
    obtain ⟨hk, hks⟩ := forall_mem_cons.1 hks
    have hrest := ih (h.step hk) hks
    rwa [Finset.insert_union, ← Finset.union_insert, ← toFinset_cons] at hrest

theorem holds_withFields (byRow : Bool) (fields : List Utf8) : (withFields byRow fields).Holds ∅ False :=
  ⟨rfl, by simp [withFields], fun _ => rfl, by simp [withFields, HashSet.empty]⟩

theorem Holds.merge (h : agg.Holds K bad) (h' : other.Holds L worse) : (agg.merge other).Holds (K ∪ L) (bad ∨ worse) := by
  have hfold : (other.seen.items.foldl tryInsert agg).Holds (K ∪ other.seen.items.toFinset) bad := h.steps h'.short
  unfold CardinalityAggregator.merge
  cases hsat : other.saturated with
  | true =>
    refine ⟨hfold.cap, iff_of_true rfl ?_, by simp, hfold.short⟩
    exact (h'.flag.1 hsat).imp .inr over_right
  | false =>
    have hL : other.seen.items.toFinset = L := h'.seen hsat
    have hgood : ¬ worse := fun hworse => by
      rw [h'.flag.2 (.inl hworse)] at hsat
      cases hsat
    rw [hL] at hfold
    refine ⟨hfold.cap, hfold.flag.trans ?_, hfold.seen, hfold.short⟩
    rw [or_iff_left hgood]

end CardinalityAggregator

/-! ## What an envelope stands for -/

/-- A set of values goes through the check of an envelope, and nothing else
does. -/
theorem distinctValues_eq {distinct : HashSet Utf8} {values : List Utf8} (hnodup : values.Nodup)
    (hnew : ∀ v ∈ values, v ∉ distinct.items) (hshort : ∀ v ∈ values, v.bytes.length ≤ maxWireValueBytes) :
    ∃ d, distinctValues distinct (values.map .string) = .ok d ∧ d.len = distinct.len + values.length := by
  induction values generalizing distinct with
  | nil => exact ⟨distinct, rfl, rfl⟩
  | cons v vs ih =>
    obtain ⟨hv, hvs⟩ := nodup_cons.1 hnodup
    rw [forall_mem_cons] at hnew hshort
    have hrest : ∀ w ∈ vs, w ∉ (distinct.insert v).items := fun w hw hin => by
      rcases HashSet.mem_insert.1 hin with rfl | hin
      · exact hv hw
      · exact hnew.2 w hw hin
    obtain ⟨d, hd, hlen⟩ := ih hvs hrest hshort.2
    refine ⟨d, ?_, ?_⟩
    · rw [map_cons, distinctValues, Json.asStr]
      simp only
      rw [if_neg (by omega), if_neg hnew.1, hd]
    · rw [hlen, HashSet.len_insert hnew.1, length_cons]
      omega

theorem distinctValues_ok {distinct d : HashSet Utf8} {items : List Json} (h : distinctValues distinct items = .ok d) :
    ∃ values : List Utf8, items = values.map .string ∧ values.Nodup ∧ (∀ v ∈ values, v ∉ distinct.items) ∧
      (∀ v ∈ values, v.bytes.length ≤ maxWireValueBytes) ∧ d.len = distinct.len + values.length := by
  induction items generalizing distinct with
  | nil =>
    cases h
    exact ⟨[], rfl, nodup_nil, by simp, by simp, rfl⟩
  | cons v vs ih =>
    unfold distinctValues at h
    cases v with
    | string s =>
      simp only [Json.asStr] at h
      split_ifs at h with hlong hin
      obtain ⟨values, rfl, hnodup, hnew, hshort, hlen⟩ := ih h
      have hs : s ∉ values := fun hs => hnew s hs (HashSet.mem_insert.2 (.inl rfl))
      refine ⟨s :: values, rfl, nodup_cons.2 ⟨hs, hnodup⟩, ?_, ?_, ?_⟩
      · exact forall_mem_cons.2 ⟨hin, fun w hw hmem => hnew w hw (HashSet.mem_insert.2 (.inr hmem))⟩
      · exact forall_mem_cons.2 ⟨by omega, hshort⟩
      · rw [hlen, HashSet.len_insert hin, length_cons]
        omega
    | null | bool | number | array | object => cases h

namespace CardinalityState

/-- What the check of an envelope makes sure of. -/
structure Valid (state : CardinalityState) : Prop where
  typ : state.typ = cardinalityStateTag
  len : state.values.length ≤ maxCardinalitySetSize
  nodup : state.values.Nodup
  short : ∀ v ∈ state.values, v.bytes.length ≤ maxWireValueBytes
  empty : state.saturated = true → state.values = []
  count : state.saturated = false → state.count.toNat = state.values.length

theorem valid_saturatedWithCount (count : UInt64) : (saturatedWithCount count).Valid :=
  ⟨rfl, Nat.zero_le _, nodup_nil, by simp [saturatedWithCount], fun _ => rfl, by simp [saturatedWithCount]⟩

theorem mapM_asStr (values : List Utf8) : (values.map Json.string).mapM Json.asStr = some values := by
  induction values with
  | nil => rfl
  | cons v vs ih => simp [ih, Json.asStr]

theorem get_toJson (state : CardinalityState) : ∃ obj, state.toJson = .object obj ∧ Json.get obj typeName = some (.string state.typ) ∧
    Json.get obj valuesName = some (.array (state.values.map .string)) ∧
    Json.get obj saturatedName = some (.bool state.saturated) ∧ Json.get obj countName = some (.ofU64 state.count) := by
  have h : valuesName ≠ typeName ∧ saturatedName ≠ typeName ∧ saturatedName ≠ valuesName ∧ countName ≠ typeName ∧
      countName ≠ valuesName ∧ countName ≠ saturatedName := by decide +kernel
  obtain ⟨h1, h2, h3, h4, h5, h6⟩ := h
  refine ⟨_, rfl, ?_, ?_, ?_, ?_⟩ <;> simp [Json.get, h1.symm, h2.symm, h3.symm, h4.symm, h5.symm, h6.symm]

theorem fromJson_toJson {state : CardinalityState} (h : state.Valid) : fromJson state.toJson = .ok (some state) := by
  obtain ⟨obj, hobj, htyp, hvalues, hsat, hcount⟩ := get_toJson state
  have hvalidate : ∃ r, validateTaggedObj obj maxCardinalitySetSize = .ok r := by
    unfold validateTaggedObj
    simp only [hsat, hcount, hvalues, Option.bind_some, Json.asBool, Json.asU64_ofU64, Json.asArray, length_map]
    rw [if_neg (not_lt.2 h.len)]
    cases hflag : state.saturated with
    | true => simp [h.empty hflag]
    | false =>
      have hnew : ∀ v ∈ state.values, v ∉ (HashSet.empty : HashSet Utf8).items := fun _ _ => not_mem_nil
      obtain ⟨d, hd, hlen⟩ := distinctValues_eq h.nodup hnew h.short
      have hcount' : state.count.toNat = d.len := by
        rw [h.count hflag, hlen, HashSet.len, HashSet.empty, length_nil, Nat.zero_add]
      rw [hd, ok_bind]
      simp [hcount']
  have hdeserialize : deserialize obj = some state := by
    unfold deserialize
    simp only [htyp, hsat, hcount, hvalues, Option.bind_some, Option.bind_eq_bind, Json.asStr, Json.asBool, Json.asArray,
      Json.asU64_ofU64, mapM_asStr, UInt64.ofNat_toNat]
  obtain ⟨r, hr⟩ := hvalidate
  rw [hobj, fromJson, if_pos (by simp [htyp, Json.asStr, h.typ]), hr, ok_bind, hdeserialize]

/-- What checks is an envelope, and the check returns two of its fields. -/
theorem deserialize_of_checked {obj : List (Utf8 × Json)} {r : Bool × UInt64}
    (htyp : (Json.get obj typeName).bind Json.asStr = some cardinalityStateTag)
    (h : validateTaggedObj obj maxCardinalitySetSize = .ok r) :
    ∃ state, deserialize obj = some state ∧ state.Valid ∧ r = (state.saturated, state.count) := by
  unfold validateTaggedObj at h
  split at h
  · cases h
  rename_i saturated hsat
  split at h
  · cases h
  rename_i count hcount
  split at h
  · cases h
  rename_i items hitems
  have hlt : count < 2 ^ 64 := by
    obtain ⟨j, -, hj⟩ := Option.bind_eq_some_iff.1 hcount
    exact Json.asU64_lt hj
  split_ifs at h with hlen hflag hitems'
  · -- a saturated envelope has no values
    cases h
    have hnone : items = [] := not_not.1 hitems'
    subst hnone hflag
    refine ⟨⟨cardinalityStateTag, [], true, .ofNat count⟩, ?_, valid_saturatedWithCount _, rfl⟩
    unfold deserialize
    simp [htyp, hsat, hcount, hitems]
  · obtain ⟨d, hd, hr⟩ := bind_eq_ok.1 h
    obtain ⟨values, rfl, hnodup, -, hshort, hd'⟩ := distinctValues_ok hd
    split_ifs at hr with hcount'
    cases hr
    rw [not_not, hd'] at hcount'
    rw [length_map] at hlen
    refine ⟨⟨cardinalityStateTag, values, saturated, .ofNat count⟩, ?_, ?_, by simp [hflag]⟩
    · unfold deserialize
      simp only [htyp, hsat, hcount, hitems, Option.bind_some, Option.bind_eq_bind, mapM_asStr]
    · refine ⟨rfl, not_lt.1 hlen, hnodup, hshort, fun hsat => absurd hsat hflag, fun _ => ?_⟩
      rw [UInt64.toNat_ofNat_of_lt' hlt, hcount']
      simp [HashSet.len, HashSet.empty]

theorem valid_of_fromJson {j : Json} {state : CardinalityState} (h : fromJson j = .ok (some state)) : state.Valid := by
  unfold fromJson at h
  split at h
  · split_ifs at h with htyp
    · obtain ⟨r, hr, h⟩ := bind_eq_ok.1 h
      obtain ⟨state', hstate', hvalid, -⟩ := deserialize_of_checked htyp hr
      rw [hstate'] at h
      cases h
      exact hvalid
    · cases h
  · cases h

/-- The probe of the final pass sees what the parser sees. -/
theorem peekJson_eq (j : Json) : peekJson j = (fromJson j).map (Option.map fun state => (state.saturated, state.count)) := by
  unfold peekJson fromJson
  split
  · rename_i obj
    split_ifs with htyp
    · cases hr : validateTaggedObj obj maxCardinalitySetSize with
      | error e => rfl
      | ok r =>
        obtain ⟨state, hstate, -, rfl⟩ := deserialize_of_checked htyp hr
        rw [ok_bind, hstate]
        rfl
    · rfl
  · rfl

/-- It holds a set of keys, or is flagged, as an aggregator is. -/
structure Holds (state : CardinalityState) (K : Finset Utf8) (bad : Prop) : Prop where
  flag : state.saturated = true ↔ bad ∨ maxCardinalitySetSize < K.card
  values : state.saturated = false → state.values.toFinset = K

variable {a b state : CardinalityState} {agg : CardinalityAggregator} {K L : Finset Utf8} {bad worse : Prop}

theorem holds_saturatedWithCount (count : UInt64) (h : bad ∨ maxCardinalitySetSize < K.card) :
    (saturatedWithCount count).Holds K bad := ⟨iff_of_true rfl h, by simp [saturatedWithCount]⟩

theorem valid_of_items {set : HashSet Utf8} (hlen : set.len ≤ maxCardinalitySetSize)
    (hshort : ∀ k ∈ set.items, k.bytes.length ≤ maxWireValueBytes) :
    (⟨cardinalityStateTag, set.items, false, .ofNat set.len⟩ : CardinalityState).Valid := by
  refine ⟨rfl, hlen, set.nodup, hshort, by simp, fun _ => UInt64.toNat_ofNat_of_lt' ?_⟩
  exact hlen.trans_lt (by decide)

theorem intoState_spec (h : agg.Holds K bad) : agg.intoState.Valid ∧ agg.intoState.Holds K bad := by
  unfold CardinalityAggregator.intoState
  cases hsat : agg.saturated with
  | true => exact ⟨valid_saturatedWithCount _, holds_saturatedWithCount _ (h.flag.1 hsat)⟩
  | false =>
    have hK := h.seen hsat
    have hflag := h.flag
    rw [hsat] at hflag
    refine ⟨valid_of_items ?_ h.short, hflag, fun _ => hK⟩
    have hover := fun hover => hflag.2 (.inr hover)
    rw [← HashSet.card_toFinset, hK]
    exact not_lt.1 fun hover' => Bool.false_ne_true (hover hover')

/-- The loop of `from_state` inserts as the aggregator does. -/
theorem fromState_eq (state : CardinalityState) :
    let agg := state.values.foldl CardinalityAggregator.tryInsert ⟨.empty, false, [], [], state.saturated, exactCardinalitySetCap⟩
    CardinalityAggregator.fromState state =
      { agg with saturated := if ¬ agg.saturated ∧ state.count.toNat ≠ agg.seen.len then true else agg.saturated } := by
  have hload : ∀ (vs : List Utf8) (acc : HashSet Utf8 × Bool),
      let loaded := vs.foldl (fun (acc : HashSet Utf8 × Bool) v =>
        if exactCardinalitySetCap ≤ acc.1.len then (if v ∈ acc.1.items then acc else (acc.1, true)) else (acc.1.insert v, acc.2)) acc
      vs.foldl CardinalityAggregator.tryInsert ⟨acc.1, false, [], [], acc.2, exactCardinalitySetCap⟩ =
        ⟨loaded.1, false, [], [], loaded.2, exactCardinalitySetCap⟩ := by
    intro vs
    induction vs with
    | nil => exact fun _ => rfl
    | cons v vs ih =>
      intro acc
      simp only [foldl_cons]
      rw [← ih]
      unfold CardinalityAggregator.tryInsert
      by_cases hmem : v ∈ acc.1.items <;> by_cases hfull : exactCardinalitySetCap ≤ acc.1.len <;>
        simp [hmem, hfull, HashSet.insert_of_mem]
  simp only [hload state.values (.empty, state.saturated)]
  rfl

/-- A valid envelope is loaded as a whole. -/
theorem fromState_spec (hvalid : state.Valid) (h : state.Holds K bad) : (CardinalityAggregator.fromState state).Holds K bad := by
  have hstart : CardinalityAggregator.Holds ⟨.empty, false, [], [], state.saturated, exactCardinalitySetCap⟩ ∅
      (state.saturated = true) := ⟨rfl, by simp, fun _ => rfl, by simp [HashSet.empty]⟩
  have hload := hstart.steps hvalid.short
  rw [Finset.empty_union] at hload
  rw [fromState_eq]
  cases hsat : state.saturated with
  | true =>
    rw [hsat] at hload
    have hflag := hload.flag.2 (.inl rfl)
    refine ⟨hload.cap, iff_of_true ?_ (h.flag.1 hsat), ?_, hload.short⟩ <;> simp [hflag]
  | false =>
    have hK := h.values hsat
    have hcard : K.card = state.values.length := by rw [← hK, toFinset_card_of_nodup hvalid.nodup]
    rw [hsat, hK] at hload
    have hflag := hload.flag
    have hlen := hvalid.len
    have hunsat : (state.values.foldl CardinalityAggregator.tryInsert
        ⟨.empty, false, [], [], false, exactCardinalitySetCap⟩).saturated = false := by
      rw [← Bool.not_eq_true, hflag]
      rintro (hbad | hover)
      · cases hbad
      · omega
    have hseen := hload.seen hunsat
    have hcount : state.count.toNat = (state.values.foldl CardinalityAggregator.tryInsert
        ⟨.empty, false, [], [], false, exactCardinalitySetCap⟩).seen.len := by
      rw [hvalid.count hsat, ← hcard, ← hseen, HashSet.card_toFinset]
    refine ⟨hload.cap, ?_, fun _ => hseen, hload.short⟩
    have hiff := h.flag
    rw [hsat] at hiff
    simpa [hunsat, hcount] using hiff

/-- The set of a union, or that it is past the cap. -/
theorem unionInto_spec (cap : ℕ) (vs : List Utf8) {merged : HashSet Utf8} (hlen : merged.len ≤ cap) :
    match unionInto cap merged vs with
    | .ok all => all.toFinset = merged.toFinset ∪ vs.toFinset ∧ all.len ≤ cap
    | .error _ => cap < (merged.toFinset ∪ vs.toFinset).card := by
  induction vs generalizing merged with
  | nil => simpa [unionInto] using hlen
  | cons v vs ih =>
    have hunion : merged.toFinset ∪ (v :: vs).toFinset = (merged.insert v).toFinset ∪ vs.toFinset := by
      rw [HashSet.toFinset_insert, toFinset_cons, Finset.union_insert, Finset.insert_union]
    rw [hunion, unionInto]
    split_ifs with hover
    · refine hover.trans_le ?_
      rw [← HashSet.card_toFinset]
      exact Finset.card_le_card Finset.subset_union_left
    · exact ih (not_lt.1 hover)

theorem union_spec (hvalid : a.Valid) (hvalid' : b.Valid) (h : a.Holds K bad) (h' : b.Holds L worse) :
    (a.union b).Valid ∧ (a.union b).Holds (K ∪ L) (bad ∨ worse) := by
  unfold CardinalityState.union unionWithCap
  split_ifs with hsat hempty hempty'
  · refine ⟨valid_saturatedWithCount _, holds_saturatedWithCount _ ?_⟩
    rw [Bool.or_eq_true] at hsat
    rcases hsat with hsat | hsat
    · exact (h.flag.1 hsat).imp .inl over_left
    · exact (h'.flag.1 hsat).imp .inr over_right
  all_goals
    rw [Bool.or_eq_true, not_or, Bool.not_eq_true, Bool.not_eq_true] at hsat
    obtain ⟨ha, hb⟩ := hsat
    have hK := h.values ha
    have hL := h'.values hb
    have hflag := h.flag
    have hflag' := h'.flag
    rw [ha] at hflag
    rw [hb] at hflag'
    simp only [Bool.false_eq_true, false_iff, not_or, not_lt] at hflag hflag'
  · rw [hempty.2, toFinset_nil] at hL
    rw [← hL, Finset.union_empty]
    exact ⟨hvalid, by rw [ha]; simp [hflag.1, hflag'.1, hflag.2], fun _ => hK⟩
  · rw [hempty'.2, toFinset_nil] at hK
    rw [← hK, Finset.empty_union]
    exact ⟨hvalid', by rw [hb]; simp [hflag.1, hflag'.1, hflag'.2], fun _ => hL⟩
  · have hloop := @unionInto_spec exactCardinalitySetCap (a.values ++ b.values) .empty (Nat.zero_le _)
    rw [HashSet.toFinset_empty, Finset.empty_union, toFinset_append, hK, hL] at hloop
    cases hr : unionInto exactCardinalitySetCap .empty (a.values ++ b.values) with
    | error n =>
      rw [hr] at hloop
      exact ⟨valid_saturatedWithCount _, holds_saturatedWithCount _ (.inr hloop)⟩
    | ok merged =>
      rw [hr] at hloop
      refine ⟨valid_of_items hloop.2 fun k hk => ?_, ?_, fun _ => hloop.1⟩
      · rw [← HashSet.mem_toFinset, hloop.1, ← hK, ← hL, Finset.mem_union, mem_toFinset, mem_toFinset] at hk
        exact hk.elim (hvalid.short k) (hvalid'.short k)
      · have hcard := hloop.2
        rw [← HashSet.card_toFinset, hloop.1] at hcard
        refine iff_of_false Bool.false_ne_true ?_
        rintro ((hbad | hworse) | hover)
        · exact hflag.1 hbad
        · exact hflag'.1 hworse
        · exact absurd hover (not_lt.2 hcard)

end CardinalityState

/-! ## Merging envelopes -/

/-- An envelope that stands for a set of keys, or something that is none and is
flagged. -/
def Carries (j : Json) (K : Finset Utf8) (bad : Prop) : Prop :=
  (∃ state, classify j = .state state ∧ state.Valid ∧ state.Holds K bad) ∨
    (classify j = .poison ∧ (bad ∨ maxCardinalitySetSize < K.card))

theorem classify_toJson {state : CardinalityState} (h : state.Valid) : classify state.toJson = .state state := by
  rw [classify, CardinalityState.fromJson_toJson h]

theorem classify_eq_state {j : Json} {state : CardinalityState} (h : classify j = .state state) :
    CardinalityState.fromJson j = .ok (some state) := by
  unfold classify at h
  split at h
  · rename_i hj
    cases h
    exact hj
  · split at h <;> cases h
  · cases h

theorem carries_toJson {state : CardinalityState} {K : Finset Utf8} {bad : Prop} (hvalid : state.Valid) (h : state.Holds K bad) :
    Carries state.toJson K bad := .inl ⟨state, classify_toJson hvalid, hvalid, h⟩

/-- Two envelopes merge into one that stands for both. -/
theorem mergeCardinality_spec {dst src : Json} {K L : Finset Utf8} {bad worse : Prop} (h : Carries dst K bad)
    (h' : Carries src L worse) :
    ∃ state : CardinalityState, mergeCardinality dst src = state.toJson ∧ state.Valid ∧ state.Holds (K ∪ L) (bad ∨ worse) := by
  have hflagged : ∀ count, (bad ∨ worse) ∨ maxCardinalitySetSize < (K ∪ L).card →
      ∃ state : CardinalityState, (CardinalityState.saturatedWithCount count).toJson = state.toJson ∧ state.Valid ∧
        state.Holds (K ∪ L) (bad ∨ worse) := fun count hflag =>
    ⟨_, rfl, CardinalityState.valid_saturatedWithCount _, CardinalityState.holds_saturatedWithCount _ hflag⟩
  unfold mergeCardinality
  rcases h with ⟨d, hd, hvalid, h⟩ | ⟨hd, hflag⟩ <;> rcases h' with ⟨s, hs, hvalid', h'⟩ | ⟨hs, hflag'⟩ <;> rw [hd, hs] <;> simp only
  · exact ⟨_, rfl, CardinalityState.union_spec hvalid hvalid' h h'⟩
  · exact hflagged _ (hflag'.imp .inr over_right)
  · exact hflagged _ (hflag.imp .inl over_left)
  · exact hflagged _ (hflag.imp .inl over_left)

/-- What the final pass answers for a set of keys. -/
def finalAnswer (K : Finset Utf8) (bad : Bool) : Option Json :=
  if bad ∨ maxCardinalitySetSize < K.card then none else some (.ofU64 (.ofNat K.card))

theorem finalizeAggValue_eq {agg : CardinalityAggregator} {K : Finset Utf8} {bad : Bool} (h : agg.Holds K bad) :
    (finalizeAggValue agg).toOption = finalAnswer K bad := by
  unfold finalizeAggValue CardinalityAggregator.saturation finalAnswer
  cases hsat : agg.saturated with
  | true =>
    rw [if_pos (h.flag.1 hsat)]
    rfl
  | false =>
    rw [if_neg fun hflag => Bool.false_ne_true (hsat.symm.trans (h.flag.2 hflag)), ← h.seen hsat, HashSet.card_toFinset]
    rfl

theorem finalizeCardinality_eq {j : Json} {K : Finset Utf8} {bad : Bool} (hnotCount : j.asU64 = none) (h : Carries j K bad) :
    (finalizeCardinality j).toOption = finalAnswer K bad := by
  unfold finalizeCardinality finalAnswer
  rw [CardinalityState.peekJson_eq]
  rcases h with ⟨state, hstate, hvalid, h⟩ | ⟨hpoison, hflag⟩
  · rw [classify_eq_state hstate]
    cases hsat : state.saturated with
    | true =>
      rw [if_pos (h.flag.1 hsat)]
      simp [Except.map, hsat, Except.toOption]
    | false =>
      rw [if_neg fun hflag => Bool.false_ne_true (hsat.symm.trans (h.flag.2 hflag)), ← h.values hsat,
        toFinset_card_of_nodup hvalid.nodup, ← hvalid.count hsat]
      simp [Except.map, hsat, Except.toOption]
  · rw [if_pos hflag]
    unfold classify at hpoison
    split at hpoison
    · cases hpoison
    · rename_i hj
      simp [hj, Except.map, hnotCount, Except.toOption]
    · rename_i hj
      simp [hj, Except.map, Except.toOption]

/-! ## Any gathering -/

/-- Where a partial result is: an aggregator in a process, or an envelope
between two. -/
inductive Place where
  | process
  | wire

/-- How rows in shards, and what peers sent, are merged. A bare count is no
envelope and has no keys. -/
inductive Gathering : Place → Type where
  | shard (rows : List (List (Option Json))) : Gathering .process
  | merge (left right : Gathering .process) : Gathering .process
  | hydrate (sent : Gathering .wire) : Gathering .process
  | ship (result : Gathering .process) : Gathering .wire
  | combine (left right : Gathering .wire) : Gathering .wire
  | peer (sent : Json) (notCount : sent.asU64 = none) : Gathering .wire

abbrev Place.Partial : Place → Type
  | process => CardinalityAggregator
  | wire => Json

def Place.finalize : (place : Place) → place.Partial → Except ResourceLimit Json
  | process => finalizeAggValue
  | wire => finalizeCardinality

namespace Gathering

variable (sha : Bytes → Digest) (text : Json → Utf8) (byRow : Bool) (fields : List Utf8)

/-- Nothing where an envelope is refused by the one who would load it. -/
def eval : {place : Place} → Gathering place → Option place.Partial
  | _, shard rows => some (rows.foldl (CardinalityAggregator.aggregateRowValues sha text) (.withFields byRow fields))
  | _, merge left right => do
    let agg ← left.eval
    let other ← right.eval
    some (agg.merge other)
  | _, hydrate sent => do
    match CardinalityState.fromJson (← sent.eval) with
    | .ok (some state) => some (.fromState state)
    | _ => none
  | _, ship result => do
    let agg ← result.eval
    some agg.intoState.toJson
  | _, combine left right => do
    let dst ← left.eval
    let src ← right.eval
    some (mergeCardinality dst src)
  | _, peer sent _ => some sent

/-- The count, or nothing where the query fails. -/
def answer {place : Place} (t : Gathering place) : Option Json :=
  (t.eval sha text byRow fields).bind fun result => (place.finalize result).toOption

end Gathering

namespace Gathering

variable {place : Place}

/-- The rows of all shards. -/
def rows : {place : Place} → Gathering place → List (List (Option Json))
  | _, shard rows => rows
  | _, merge left right => left.rows ++ right.rows
  | _, hydrate sent => sent.rows
  | _, ship result => result.rows
  | _, combine left right => left.rows ++ right.rows
  | _, peer _ _ => []

/-- What peers sent. -/
def sent : {place : Place} → Gathering place → List Json
  | _, shard _ => []
  | _, merge left right => left.sent ++ right.sent
  | _, hydrate sent => sent.sent
  | _, ship result => result.sent
  | _, combine left right => left.sent ++ right.sent
  | _, peer sent _ => [sent]

end Gathering

/-- The keys of an envelope that checks and is not saturated. -/
def envelopeKeys (j : Json) : Option (List Utf8) :=
  match CardinalityState.fromJson j with
  | .ok (some state) => if state.saturated then none else some state.values
  | _ => none

/-- Some peer sent a saturated state, or what does not check. -/
def rejects (sent : List Json) : Bool := sent.any fun j => (envelopeKeys j).isNone

def peerKeys (sent : List Json) : Finset Utf8 := (sent.flatMap fun j => (envelopeKeys j).getD []).toFinset

/-- What a partial result says of a set of keys. -/
def Place.Says : (place : Place) → place.Partial → Finset Utf8 → Prop → Prop
  | process => fun agg K bad => agg.Holds K bad
  | wire => fun j K bad => j.asU64 = none ∧ Carries j K bad

section

variable {sha : Bytes → Digest} {text : Json → Utf8} {byRow : Bool} {fields : List Utf8}

theorem short_clipToKeyCap (raw : Utf8) : (clipToKeyCap sha raw).bytes.length ≤ maxWireValueBytes := by
  unfold clipToKeyCap
  split_ifs with hshort
  · exact hshort.trans (Nat.le_add_right _ _)
  · have hlen : (shaKey (sha raw.bytes)).bytes.length = shaPrefix.bytes.length + 2 * 32 := by
      rw [shaKey, Utf8.bytes_append, length_append]
      exact congrArg _ ((length_hex _).trans (congrArg _ (sha raw.bytes).2))
    rw [hlen]
    decide +kernel

theorem short_rowKeys {row : List (Option Json)} : ∀ k ∈ rowKeys sha text byRow row, k.bytes.length ≤ maxWireValueBytes := by
  intro k hk
  unfold rowKeys at hk
  split_ifs at hk
  · cases hk
  · rw [mem_singleton.1 hk]
    exact short_clipToKeyCap _
  · obtain ⟨cell, -, rfl⟩ := mem_map.1 hk
    exact short_clipToKeyCap _

theorem holds_shard (rows : List (List (Option Json))) :
    (rows.foldl (CardinalityAggregator.aggregateRowValues sha text) (.withFields byRow fields)).Holds (keys sha text byRow rows) False := by
  have hfold : ∀ agg : CardinalityAggregator, agg.rowParts = [] → agg.byRow = byRow →
      rows.foldl (CardinalityAggregator.aggregateRowValues sha text) agg =
        (rows.flatMap (rowKeys sha text byRow)).foldl CardinalityAggregator.tryInsert agg := by
    induction rows with
    | nil => exact fun _ _ _ => rfl
    | cons row rows ih =>
      intro agg hparts hbyRow
      rw [foldl_cons, CardinalityAggregator.aggregateRowValues_eq hparts, ih _ (by simpa using hparts) (by simpa using hbyRow),
        flatMap_cons, foldl_append, hbyRow]
  rw [hfold _ rfl rfl]
  have hshort : ∀ k ∈ rows.flatMap (rowKeys sha text byRow), k.bytes.length ≤ maxWireValueBytes := fun k hk => by
    obtain ⟨row, -, hk⟩ := mem_flatMap.1 hk
    exact short_rowKeys k hk
  have hkeys := (CardinalityAggregator.holds_withFields byRow fields).steps hshort
  rwa [Finset.empty_union] at hkeys

theorem keys_append (xs ys : List (List (Option Json))) :
    keys sha text byRow (xs ++ ys) = keys sha text byRow xs ∪ keys sha text byRow ys := by
  rw [keys, flatMap_append, toFinset_append, keys, keys]

theorem keys_perm {xs ys : List (List (Option Json))} (h : xs.Perm ys) : keys sha text byRow xs = keys sha text byRow ys :=
  toFinset_eq_of_perm _ _ (h.flatMap_right _)

theorem peerKeys_append (xs ys : List Json) : peerKeys (xs ++ ys) = peerKeys xs ∪ peerKeys ys := by
  rw [peerKeys, flatMap_append, toFinset_append, peerKeys, peerKeys]

theorem rejects_append (xs ys : List Json) : rejects (xs ++ ys) = (rejects xs || rejects ys) := any_append

/-- What a peer sent stands for its keys if it checks. -/
theorem carries_peer {sent : Json} (notCount : sent.asU64 = none) : Carries sent (peerKeys [sent]) (rejects [sent]) := by
  have hkeys : peerKeys [sent] = ((envelopeKeys sent).getD []).toFinset := by simp [peerKeys]
  have hrejects : rejects [sent] = (envelopeKeys sent).isNone := by simp [rejects]
  rw [hkeys, hrejects]
  unfold envelopeKeys
  cases hj : CardinalityState.fromJson sent with
  | error e =>
    refine .inr ⟨?_, .inl rfl⟩
    rw [classify, hj]
  | ok found =>
    cases found with
    | none =>
      refine .inr ⟨?_, .inl rfl⟩
      rw [classify, hj]
      simp only [notCount]
    | some state =>
      have hvalid := CardinalityState.valid_of_fromJson hj
      refine .inl ⟨state, by rw [classify, hj], hvalid, ?_⟩
      cases hsat : state.saturated with
      | true => exact ⟨by simp [hsat], by simp [hsat]⟩
      | false =>
        have hcard := hvalid.len
        rw [← toFinset_card_of_nodup hvalid.nodup] at hcard
        exact ⟨by simpa [hsat] using hcard, fun _ => by simp [hsat]⟩

theorem says_toJson {state : CardinalityState} {K : Finset Utf8} {bad : Prop} (hvalid : state.Valid) (h : state.Holds K bad) :
    Place.wire.Says state.toJson K bad := ⟨rfl, carries_toJson hvalid h⟩

theorem says_eval {place : Place} (t : Gathering place) :
    match t.eval sha text byRow fields with
    | some result => place.Says result (keys sha text byRow t.rows ∪ peerKeys t.sent) (rejects t.sent)
    | none => rejects t.sent ∨ maxCardinalitySetSize < (keys sha text byRow t.rows ∪ peerKeys t.sent).card := by
  -- of two trees, with the keys and the rejections of both
  have hnode : ∀ {place : Place} (left right : Gathering place) (op : place.Partial → place.Partial → place.Partial)
      (K L : Finset Utf8) (bad worse : Bool),
      (∀ x y, place.Says x K bad → place.Says y L worse → place.Says (op x y) (K ∪ L) (bad ∨ worse)) →
      (match left.eval sha text byRow fields with
        | some result => place.Says result K bad
        | none => bad ∨ maxCardinalitySetSize < K.card) →
      (match right.eval sha text byRow fields with
        | some result => place.Says result L worse
        | none => worse ∨ maxCardinalitySetSize < L.card) →
      match (do
        let x ← left.eval sha text byRow fields
        let y ← right.eval sha text byRow fields
        some (op x y)) with
      | some result => place.Says result (K ∪ L) (bad || worse)
      | none => (bad || worse) ∨ maxCardinalitySetSize < (K ∪ L).card := by
    intro place left right op K L bad worse hop hl hr
    simp only [Bool.or_eq_true]
    cases hx : left.eval sha text byRow fields with
    | none =>
      rw [hx] at hl
      exact hl.imp .inl over_left
    | some x =>
      cases hy : right.eval sha text byRow fields with
      | none =>
        rw [hy] at hr
        exact hr.imp .inr over_right
      | some y =>
        rw [hx] at hl
        rw [hy] at hr
        exact hop x y hl hr
  induction t with
  | shard rows =>
    have hnone : peerKeys [] = ∅ := rfl
    rw [Gathering.eval, Gathering.rows, Gathering.sent, hnone, Finset.union_empty]
    simpa [Place.Says, rejects] using holds_shard rows
  | merge left right ihl ihr =>
    have h := hnode left right CardinalityAggregator.merge _ _ _ _ (fun x y hx hy => hx.merge hy) ihl ihr
    rw [Gathering.rows, Gathering.sent, keys_append, peerKeys_append, rejects_append, Finset.union_union_union_comm]
    exact h
  | combine left right ihl ihr =>
    have hmerge : ∀ {K L : Finset Utf8} {bad worse : Prop} (x y : Json), Place.wire.Says x K bad → Place.wire.Says y L worse →
        Place.wire.Says (mergeCardinality x y) (K ∪ L) (bad ∨ worse) := fun x y hx hy => by
      obtain ⟨state, hstate, hvalid, h⟩ := mergeCardinality_spec hx.2 hy.2
      rw [hstate]
      exact says_toJson hvalid h
    have h := hnode left right mergeCardinality _ _ _ _ hmerge ihl ihr
    rw [Gathering.rows, Gathering.sent, keys_append, peerKeys_append, rejects_append, Finset.union_union_union_comm]
    exact h
  | hydrate sent ih =>
    rw [Gathering.eval, Gathering.rows, Gathering.sent]
    cases hsent : sent.eval sha text byRow fields with
    | none =>
      rw [hsent] at ih
      exact ih
    | some j =>
      rw [hsent] at ih
      obtain ⟨hnot, ⟨state, hstate, hvalid, h⟩ | ⟨hpoison, hflag⟩⟩ := ih
      · simp only [Option.bind_some, Option.bind_eq_bind, classify_eq_state hstate]
        exact CardinalityState.fromState_spec hvalid h
      · unfold classify at hpoison
        split at hpoison
        · cases hpoison
        · rename_i hj
          simpa [hj] using hflag
        · rename_i hj
          simpa [hj] using hflag
  | ship result ih =>
    rw [Gathering.eval, Gathering.rows, Gathering.sent]
    cases hresult : result.eval sha text byRow fields with
    | none =>
      rw [hresult] at ih
      exact ih
    | some agg =>
      rw [hresult] at ih
      have h := CardinalityState.intoState_spec ih
      exact says_toJson h.1 h.2
  | peer sent notCount =>
    exact ⟨notCount, carries_peer notCount⟩

theorem answer_eq {place : Place} (t : Gathering place) :
    t.answer sha text byRow fields = finalAnswer (keys sha text byRow t.rows ∪ peerKeys t.sent) (rejects t.sent) := by
  have h := @says_eval sha text byRow fields place t
  unfold Gathering.answer
  cases ht : t.eval sha text byRow fields with
  | none =>
    rw [ht] at h
    exact (if_pos h).symm
  | some result =>
    rw [ht] at h
    cases place with
    | process => exact finalizeAggValue_eq h
    | wire => exact finalizeCardinality_eq h.1 h.2

end

/-- However rows are split and their results merged, and whatever peers send,
the answer is the size of the union of the keys, or none exactly when a peer's
state is rejected or the union is past the cap. The keys of the rows are as many
as the different things in them. -/
theorem gather_exact {sha : Bytes → Digest} {text : Json → Utf8} {byRow : Bool} (fields : List Utf8)
    {rows : List (List (Option Json))} {place : Place} (t : Gathering place) (hrows : t.rows.Perm rows)
    (h : Distinguished sha text byRow rows) :
    t.answer sha text byRow fields = finalAnswer (keys sha text byRow rows ∪ peerKeys t.sent) (rejects t.sent) ∧
      (keys sha text byRow rows).card = (distinct byRow rows).card ∧
      (t.sent = [] → t.answer sha text byRow fields =
        if maxCardinalitySetSize < (distinct byRow rows).card then none else some (.ofU64 (.ofNat (distinct byRow rows).card))) := by
  have heq := @answer_eq sha text byRow fields place t
  rw [keys_perm hrows] at heq
  refine ⟨heq, card_keys h, fun hsent => ?_⟩
  have hnone : peerKeys [] = ∅ := rfl
  rw [heq, hsent, hnone, Finset.union_empty, finalAnswer, card_keys h]
  simp [rejects]

/-- Two strings and a missing value, in two shards that share a row. -/
theorem gather_exact_three :
    let text : Json → Utf8
      | .string s => ⟨ascii "\"", Eq.refl true⟩ ++ s ++ ⟨ascii "\"", Eq.refl true⟩
      | _ => ⟨ascii "null", Eq.refl true⟩
    let a : Utf8 := ⟨ascii "a", Eq.refl true⟩
    let b : Utf8 := ⟨ascii "b", Eq.refl true⟩
    let t := Gathering.combine (.ship (.shard [[some (.string a)], [none]])) (.ship (.shard [[some (.string a)], [some (.string b)]]))
    t.answer (fun _ => ⟨List.replicate 32 0, rfl⟩) text true [] = some (.ofU64 3) := by
  intro text a b t
  have h : Distinguished (fun _ => ⟨List.replicate 32 0, rfl⟩) text true t.rows := ⟨by decide +kernel, by decide +kernel⟩
  refine ((gather_exact [] t .rfl h).2.2 rfl).trans ?_
  decide +kernel

end FerroDruid.Aggregator
