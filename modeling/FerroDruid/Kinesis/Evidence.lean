import FerroDruid.Kinesis.NoLoss
import FerroDruid.Kinesis.ResumeFrontier
import FerroDruid.Kinesis.Walk
/-!
# A checkpoint that cannot be read grants no skip

What a shard may skip past comes from well-formed spans of loaded rows of the
current stream; any other row can only floor shards.
-/

namespace FerroDruid.Kinesis

open Lib List

variable {stream : Utf8} {current : Option Int64} {row : FrontierRowEvidence} {rows : List FrontierRowEvidence} {shard : Utf8}

/-! ## The entries of a map -/

theorem get_eq_dlookup (fields : List (Utf8 × Json)) (k : Utf8) :
    Json.get fields k = List.dlookup k (fields.map fun f => (⟨f.1, f.2⟩ : Sigma fun _ : Utf8 => Json)) := by
  induction fields with
  | nil => rfl
  | cons f fields ih =>
    by_cases h : f.1 = k
    · subst h
      simp [Json.get]
    · rw [map_cons, dlookup_cons_ne _ _ (Ne.symm h), ← ih, Json.get, Json.get, find?_cons_of_neg (by simpa using h)]

theorem mem_mapEntries {fields : List (Utf8 × Json)} {k : Utf8} {v : Json} : (k, v) ∈ mapEntries fields ↔ Json.get fields k = some v := by
  rw [get_eq_dlookup, ← dlookup_dedupKeys]
  constructor
  · intro h
    obtain ⟨⟨k', v'⟩, hmem, heq⟩ := mem_map.1 h
    cases heq
    exact (mem_dlookup_iff (nodupKeys_dedupKeys _)).2 hmem
  · intro h
    exact mem_map.2 ⟨⟨k, v⟩, (mem_dlookup_iff (nodupKeys_dedupKeys _)).1 h, rfl⟩

theorem nodup_mapEntries (fields : List (Utf8 × Json)) : ((mapEntries fields).map (·.1)).Nodup := by
  have h := nodupKeys_dedupKeys (fields.map fun f => (⟨f.1, f.2⟩ : Sigma fun _ : Utf8 => Json))
  unfold mapEntries
  rw [map_map]
  exact h

/-! ## Rows -/

/-- A checkpoint of the stream has an entry for the shard. -/
def Names (stream shard : Utf8) (p : Json) : Prop :=
  attributed stream p = true ∧ ∃ fields v, field p sequencesPayloadKey = some (.object fields) ∧ Json.get fields shard = some v

/-- The checkpoint is no map, or an empty one: its shards cannot be listed. -/
def Unreadable (stream : Utf8) (p : Json) : Prop :=
  attributed stream p = true ∧ ∃ checkpoint, field p sequencesPayloadKey = some checkpoint ∧ ∀ f fields, checkpoint ≠ .object (f :: fields)

/-- The row floors every shard. -/
def Condemns (stream : Utf8) (current : Option Int64) (p : Json) : Prop :=
  attributionCorrupt stream p = true ∨ Unreadable stream p ∨ (∃ shard, Names stream shard p) ∧ stampedOther current p

/-- The entry of a checkpoint is a span. -/
structure IsSpan (v : Json) (span : SeqSpan) : Prop where
  start : (field v startKey).bind parseText = some span.start
  last : (field v lastKey).bind parseText = some span.last
  prevLast : parsePrevLast (field v prevLastKey) = some span.prevLast

/-- The row lets the shard skip past a span. -/
structure Skips (stream : Utf8) (current : Option Int64) (shard : Utf8) (row : FrontierRowEvidence) (span : SeqSpan) : Prop where
  loaded : row.loaded = true
  attributed : attributed stream row.payload = true
  stamped : stampedCurrent current row.payload
  entry : ∃ fields v, field row.payload sequencesPayloadKey = some (.object fields) ∧ Json.get fields shard = some v ∧ IsSpan v span

theorem not_attributed_of_corrupt (h : attributionCorrupt stream row.payload = true) : attributed stream row.payload = false := by
  by_contra ha
  rw [Bool.not_eq_false, attributed, Bool.and_eq_true, decide_eq_true_eq, decide_eq_true_eq] at ha
  obtain ⟨hkind, hstream⟩ := ha
  obtain ⟨k, hk, hkt⟩ := Option.bind_eq_some_iff.1 hkind
  obtain ⟨s, hs, hst⟩ := Option.bind_eq_some_iff.1 hstream
  simp [attributionCorrupt, hk, hs, hkt, hst] at h

variable {span : SeqSpan}

theorem readSpan_eq_some {v : Json} : readSpan v = some span ↔ IsSpan v span := by
  unfold readSpan
  constructor
  · intro h
    cases hstart : (field v startKey).bind parseText <;> cases hlast : (field v lastKey).bind parseText <;>
      cases hprev : parsePrevLast (field v prevLastKey) <;> simp_all
    subst h
    exact ⟨hstart, hlast, hprev⟩
  · rintro ⟨hstart, hlast, hprev⟩
    rw [hstart, hlast, hprev]

theorem not_names_of_unreadable (h : Unreadable stream row.payload) (shard : Utf8) : ¬ Names stream shard row.payload := by
  rintro ⟨-, fields, v, hc, hget⟩
  obtain ⟨-, c, hc', hne⟩ := h
  cases hc.symm.trans hc'
  cases fields with
  | nil => simp [Json.get] at hget
  | cons f fields => exact hne f fields rfl

theorem not_names_of_corrupt (h : attributionCorrupt stream row.payload = true) (shard : Utf8) : ¬ Names stream shard row.payload := by
  rintro ⟨ha, -⟩
  simp [not_attributed_of_corrupt h] at ha

/-- A row with shards, a corrupt one, or one of no concern. -/
theorem readRow_cases (stream : Utf8) (current : Option Int64) (row : FrontierRowEvidence) :
    (∃ f fields, attributed stream row.payload = true ∧ field row.payload sequencesPayloadKey = some (.object (f :: fields)) ∧
      attributionCorrupt stream row.payload = false ∧ ¬ Unreadable stream row.payload ∧ Names stream f.1 row.payload ∧
      readRow stream current row = if stampedOther current row.payload then .recreated
        else .checkpoint (decide (stampedCurrent current row.payload) && row.loaded) (mapEntries (f :: fields))) ∨
    ((attributionCorrupt stream row.payload = true ∨ Unreadable stream row.payload) ∧ readRow stream current row = .corrupt) ∨
    (attributionCorrupt stream row.payload = false ∧ ¬ Unreadable stream row.payload ∧ (∀ shard, ¬ Names stream shard row.payload) ∧
      readRow stream current row = .foreign) := by
  unfold readRow
  by_cases ha : attributed stream row.payload = true
  · have hnot : attributionCorrupt stream row.payload = false := by
      by_contra h
      rw [Bool.not_eq_false] at h
      simp [not_attributed_of_corrupt h] at ha
    rw [if_pos ha]
    cases hc : field row.payload sequencesPayloadKey with
    | none => simp [hnot, Unreadable, Names, hc]
    | some c =>
      by_cases hfields : ∃ f fields, c = .object (f :: fields)
      · obtain ⟨f, fields, rfl⟩ := hfields
        have hnames : Names stream f.1 row.payload := ⟨ha, f :: fields, f.2, hc, by simp [Json.get]⟩
        exact .inl ⟨f, fields, ha, rfl, hnot, fun h => not_names_of_unreadable h _ hnames, hnames, rfl⟩
      · have hunreadable : Unreadable stream row.payload := ⟨ha, c, hc, fun f fields h => hfields ⟨f, fields, h⟩⟩
        refine .inr (.inl ⟨.inr hunreadable, ?_⟩)
        cases c with
        | object fields =>
          cases fields with
          | nil => rfl
          | cons f fields => exact absurd ⟨f, fields, rfl⟩ hfields
        | _ => rfl
  · rw [if_neg ha]
    by_cases h : attributionCorrupt stream row.payload = true
    · rw [if_pos h]
      exact .inr (.inl ⟨.inl h, rfl⟩)
    · rw [if_neg h]
      rw [Bool.not_eq_true] at h
      exact .inr (.inr ⟨h, fun hu => ha hu.1, fun shard hn => ha hn.1, rfl⟩)

theorem rowCondemns_iff : rowCondemns stream current row ↔ Condemns stream current row.payload := by
  unfold rowCondemns Condemns
  rcases readRow_cases stream current row with ⟨f, fields, -, -, hcorrupt, hreadable, hnames, hrow⟩ | ⟨hcorrupt, hrow⟩ |
    ⟨hcorrupt, hreadable, hnames, hrow⟩
  · rw [hrow]
    by_cases h : stampedOther current row.payload
    · rw [if_pos h]
      exact iff_of_true rfl (.inr (.inr ⟨⟨f.1, hnames⟩, h⟩))
    · rw [if_neg h]
      simp [hcorrupt, hreadable, h, RowReading.condemns]
  · rw [hrow, ← or_assoc]
    exact iff_of_true rfl (.inl hcorrupt)
  · simp [hrow, hcorrupt, hreadable, hnames, RowReading.condemns]

theorem rowNames_iff (h : ¬ Condemns stream current row.payload) : rowNames stream current shard row ↔ Names stream shard row.payload := by
  unfold rowNames
  rcases readRow_cases stream current row with ⟨f, fields, ha, hc, -, -, hnames, hrow⟩ | ⟨hcorrupt, -⟩ | ⟨-, -, hnames, hrow⟩
  · have hother : ¬ stampedOther current row.payload := fun hother => h (.inr (.inr ⟨⟨f.1, hnames⟩, hother⟩))
    rw [hrow, if_neg hother]
    constructor
    · intro hmem
      obtain ⟨⟨k, v⟩, hentry, rfl⟩ := mem_map.1 hmem
      exact ⟨ha, f :: fields, v, hc, mem_mapEntries.1 hentry⟩
    · rintro ⟨-, fields', v, hfields, hget⟩
      cases hc.symm.trans hfields
      exact mem_map.2 ⟨(shard, v), mem_mapEntries.2 hget, rfl⟩
  · rw [Condemns, ← or_assoc] at h
    exact absurd (.inl hcorrupt) h
  · simp [hrow, hnames, RowReading.shards]

theorem mem_entrySpans {advance : Bool} {entry : Utf8 × Json} :
    span ∈ entrySpans advance shard entry ↔ advance = true ∧ entry.1 = shard ∧ IsSpan entry.2 span := by
  unfold entrySpans
  rw [← readSpan_eq_some]
  split_ifs with h
  · simp [h]
  · simp only [not_mem_nil, false_iff]
    exact fun h' => h ⟨h'.1, h'.2.1⟩

theorem not_stampedOther (h : stampedCurrent current row.payload) : ¬ stampedOther current row.payload := by
  obtain ⟨ts, hts, rfl⟩ := h
  rintro ⟨ts', now, hts', hnow, hne⟩
  cases hts.symm.trans hts'
  cases hnow
  exact hne rfl

theorem mem_spans_iff : span ∈ (readRow stream current row).spans shard ↔ Skips stream current shard row span := by
  rcases readRow_cases stream current row with ⟨f, fields, ha, hc, -, -, hnames, hrow⟩ | ⟨hcorrupt, hrow⟩ | ⟨-, -, hnames, hrow⟩
  · rw [hrow]
    constructor
    · intro hmem
      split_ifs at hmem with hother
      · exact absurd hmem not_mem_nil
      · obtain ⟨⟨k, v⟩, hentry, hspan⟩ := mem_flatMap.1 hmem
        obtain ⟨hadvance, hk, hspan⟩ := mem_entrySpans.1 hspan
        rw [Bool.and_eq_true, decide_eq_true_eq] at hadvance
        exact ⟨hadvance.2, ha, hadvance.1, f :: fields, v, hc, mem_mapEntries.1 (hk ▸ hentry), hspan⟩
    · rintro ⟨hloaded, -, hstamped, fields', v, hfields, hget, hspan⟩
      cases hc.symm.trans hfields
      rw [if_neg (not_stampedOther hstamped), decide_eq_true hstamped, hloaded]
      exact mem_flatMap.2 ⟨(shard, v), mem_mapEntries.2 hget, mem_entrySpans.2 ⟨rfl, rfl, hspan⟩⟩
  · rw [hrow]
    refine iff_of_false not_mem_nil fun h => ?_
    obtain ⟨fields, v, hc, hget, -⟩ := h.entry
    rcases hcorrupt with hcorrupt | hunreadable
    · exact not_names_of_corrupt hcorrupt shard ⟨h.attributed, fields, v, hc, hget⟩
    · exact not_names_of_unreadable hunreadable shard ⟨h.attributed, fields, v, hc, hget⟩
  · rw [hrow]
    refine iff_of_false not_mem_nil fun h => ?_
    obtain ⟨fields, v, hc, hget, -⟩ := h.entry
    exact hnames shard ⟨h.attributed, fields, v, hc, hget⟩

theorem length_entrySpans (advance : Bool) {entries : List (Utf8 × Json)} (hnodup : (entries.map (·.1)).Nodup) :
    (entries.flatMap (entrySpans advance shard)).length ≤ 1 := by
  induction entries with
  | nil => simp
  | cons e entries ih =>
    rw [map_cons, nodup_cons] at hnodup
    rw [flatMap_cons, length_append]
    by_cases h : e.1 = shard
    · have hnone : entries.flatMap (entrySpans advance shard) = [] := by
        refine flatMap_eq_nil_iff.2 fun e' he' => ?_
        have hne : e'.1 ≠ shard := fun h' => hnodup.1 (h ▸ h' ▸ mem_map_of_mem he')
        simp [entrySpans, hne]
      rw [hnone, length_nil, Nat.add_zero]
      unfold entrySpans
      split_ifs
      · cases readSpan e.2 <;> simp
      · simp
    · have hnil : entrySpans advance shard e = [] := by simp [entrySpans, h]
      rw [hnil, length_nil, Nat.zero_add]
      exact ih hnodup.2

/-- A row has at most one span for a shard. -/
theorem length_spans (stream : Utf8) (current : Option Int64) (row : FrontierRowEvidence) (shard : Utf8) :
    ((readRow stream current row).spans shard).length ≤ 1 := by
  rcases readRow_cases stream current row with ⟨f, fields, -, -, -, -, -, hrow⟩ | ⟨-, hrow⟩ | ⟨-, -, -, hrow⟩
  · rw [hrow]
    split_ifs
    · simp [RowReading.spans]
    · exact length_entrySpans _ (nodup_mapEntries _)
  · simp [hrow, RowReading.spans]
  · simp [hrow, RowReading.spans]

/-! ## The spans of a shard -/

/-- What the rows let a shard skip past. -/
def skippable (stream : Utf8) (current : Option Int64) (rows : List FrontierRowEvidence) (shard : Utf8) : Set SeqSpan :=
  {span | (∃ row ∈ rows, Skips stream current shard row span) ∧ span.start ≤ span.last}

theorem mem_loadedSpans :
    span ∈ loadedSpans stream current rows shard ↔ ∃ row ∈ rows, Skips stream current shard row span := by
  simp only [loadedSpans, mem_flatMap, mem_spans_iff]

theorem mem_sortedSpans_loaded :
    span ∈ sortedSpans (loadedSpans stream current rows shard) ↔ span ∈ skippable stream current rows shard := by
  rw [mem_sortedSpans, mem_loadedSpans]
  rfl

/-- What a shard starts from, by what the rows say. -/
theorem startPositionFor_eq (stream : Utf8) (current : Option Int64) (rows : List FrontierRowEvidence) (shard : Utf8) (default : StartPosition) :
    ((∃ row ∈ rows, Condemns stream current row.payload) →
      (foldResumeFrontier rows stream current).startPositionFor shard default = .trimHorizon) ∧
    (¬ (∃ row ∈ rows, Condemns stream current row.payload) → (∃ row ∈ rows, Names stream shard row.payload) →
      (foldResumeFrontier rows stream current).startPositionFor shard default =
        positionAfter (resumePoint (loadedSpans stream current rows shard))) ∧
    (¬ (∃ row ∈ rows, Condemns stream current row.payload) → ¬ (∃ row ∈ rows, Names stream shard row.payload) →
      (foldResumeFrontier rows stream current).startPositionFor shard default = default) := by
  have hcondemns : (∃ row ∈ rows, rowCondemns stream current row) ↔ ∃ row ∈ rows, Condemns stream current row.payload :=
    exists_congr fun row => and_congr_right fun _ => rowCondemns_iff
  rw [startPositionFor_fold, resumeStartPosition_new, ← hcondemns]
  refine ⟨fun h => if_pos h, fun h hnames => ?_, fun h hnames => ?_⟩ <;> have h' := mt hcondemns.2 h
  · obtain ⟨row, hrow, hname⟩ := hnames
    rw [if_neg h, if_pos ⟨row, hrow, (rowNames_iff fun hc => h' ⟨row, hrow, hc⟩).2 hname⟩]
  · rw [if_neg h, if_neg]
    rintro ⟨row, hrow, hname⟩
    exact hnames ⟨row, hrow, (rowNames_iff fun hc => h' ⟨row, hrow, hc⟩).1 hname⟩

/-- The walk ends with the last number of a span. -/
theorem walk_last {spans : List SeqSpan} {point : Option SeqNum} {p : SeqNum} (h : ShardResume.walk point spans = some p) :
    point = some p ∨ ∃ span ∈ spans, span.last = p := by
  induction spans generalizing point with
  | nil => exact .inl h
  | cons span spans ih =>
    unfold ShardResume.walk at h
    split_ifs at h
    · rcases ih h with hpoint | ⟨span', hmem, hlast⟩
      · unfold ShardResume.advance at hpoint
        cases point with
        | none => exact .inr ⟨span, mem_cons_self, by simpa using hpoint⟩
        | some q =>
          dsimp only at hpoint
          split_ifs at hpoint
          · exact .inr ⟨span, mem_cons_self, by simpa using hpoint⟩
          · exact .inl hpoint
      · exact .inr ⟨span', mem_cons_of_mem _ hmem, hlast⟩
    · exact .inl h

theorem resumePoint_mem {p : SeqNum} (h : resumePoint (loadedSpans stream current rows shard) = some p) :
    ∃ span ∈ skippable stream current rows shard, span.last = p := by
  rcases walk_last h with hnone | ⟨span, hmem, hlast⟩
  · cases hnone
  · exact ⟨span, mem_sortedSpans_loaded.1 hmem, hlast⟩

/-! ## Idle rows -/

/-- The row lets no shard skip anything. -/
theorem not_skips (h : row.loaded = false ∨ ¬ stampedCurrent current row.payload) : ¬ Skips stream current shard row span := by
  intro hskips
  rcases h with h | h
  · rw [hskips.loaded] at h
    cases h
  · exact h hskips.stamped

theorem loadedSpans_idle (before after : List FrontierRowEvidence) (h : row.loaded = false ∨ ¬ stampedCurrent current row.payload) :
    loadedSpans stream current (before ++ row :: after) shard = loadedSpans stream current (before ++ after) shard := by
  have hnil : (readRow stream current row).spans shard = [] :=
    eq_nil_iff_forall_not_mem.2 fun span hmem => not_skips h (mem_spans_iff.1 hmem)
  unfold loadedSpans
  rw [flatMap_append, flatMap_cons, hnil, nil_append, flatMap_append]

/-- A row that lets no shard skip anything can only floor a shard. -/
theorem startPositionFor_idle (stream shard : Utf8) (before after : List FrontierRowEvidence)
    (h : row.loaded = false ∨ ¬ stampedCurrent current row.payload)
    (default : StartPosition) :
    (foldResumeFrontier (before ++ row :: after) stream current).startPositionFor shard default =
        (foldResumeFrontier (before ++ after) stream current).startPositionFor shard default ∨
      (foldResumeFrontier (before ++ row :: after) stream current).startPositionFor shard default = .trimHorizon := by
  obtain ⟨hcondemned, hnamed, hother⟩ := startPositionFor_eq stream current (before ++ row :: after) shard default
  obtain ⟨hcondemned', hnamed', hother'⟩ := startPositionFor_eq stream current (before ++ after) shard default
  have hmem : ∀ r ∈ before ++ after, r ∈ before ++ row :: after := by simp +contextual [or_imp]
  by_cases hc : ∃ r ∈ before ++ row :: after, Condemns stream current r.payload
  · exact .inr (hcondemned hc)
  · have hc' : ¬ ∃ r ∈ before ++ after, Condemns stream current r.payload := fun ⟨r, hr, hrc⟩ => hc ⟨r, hmem r hr, hrc⟩
    by_cases hn' : ∃ r ∈ before ++ after, Names stream shard r.payload
    · obtain ⟨r, hr, hrn⟩ := hn'
      left
      rw [hnamed hc ⟨r, hmem r hr, hrn⟩, hnamed' hc' ⟨r, hr, hrn⟩, loadedSpans_idle before after h]
    · by_cases hn : ∃ r ∈ before ++ row :: after, Names stream shard r.payload
      · -- only this row names the shard
        right
        have hnone : resumePoint (loadedSpans stream current (before ++ row :: after) shard) = none := by
          by_contra hsome
          obtain ⟨p, hp⟩ := Option.ne_none_iff_exists'.1 hsome
          rw [loadedSpans_idle before after h] at hp
          obtain ⟨span, ⟨⟨r, hr, hskips⟩, -⟩, -⟩ := resumePoint_mem hp
          obtain ⟨fields, v, hfields, hget, -⟩ := hskips.entry
          exact hn' ⟨r, hr, hskips.attributed, fields, v, hfields, hget⟩
        rw [hnamed hc hn, hnone, positionAfter_none]
      · left
        rw [hother hc hn, hother' hc' hn']

/-- A shard skips only what a well-formed span of a loaded row of the current stream
covers. Evidence keeps it from its default, and a row that is not loaded, or is not
stamped with the current stream, can only floor it. -/
theorem frontier_grants_no_skip (stream : Utf8) (current : Option Int64) (shard : Utf8) (default : StartPosition) :
    (∀ rows p, (foldResumeFrontier rows stream current).startPositionFor shard default = .afterSequenceNumber p →
      (∃ row ∈ rows, ∃ span, Skips stream current shard row span ∧ span.start ≤ span.last ∧ span.last = p) ∨
        default = .afterSequenceNumber p ∧ ∀ row ∈ rows, ¬ Names stream shard row.payload) ∧
    (∀ rows, (∃ row ∈ rows, Names stream shard row.payload ∨ Unreadable stream row.payload ∨ attributionCorrupt stream row.payload = true) →
      ∃ point, ∀ default', (foldResumeFrontier rows stream current).startPositionFor shard default' = positionAfter point) ∧
    ∀ before after row row', (row.loaded = false ∨ ¬ stampedCurrent current row.payload) →
      (row'.loaded = false ∨ ¬ stampedCurrent current row'.payload) →
      ∀ position position', (foldResumeFrontier (before ++ row :: after) stream current).startPositionFor shard default = position →
        (foldResumeFrontier (before ++ row' :: after) stream current).startPositionFor shard default = position' →
        position' = position ∨ position' = .trimHorizon ∨
          position = .trimHorizon ∧ position' = (foldResumeFrontier (before ++ after) stream current).startPositionFor shard default := by
  refine ⟨fun rows p hp => ?_, fun rows hevidence => ?_, fun before after row row' hrow hrow' position position' hpos hpos' => ?_⟩
  · obtain ⟨hcondemned, hnamed, hother⟩ := startPositionFor_eq stream current rows shard default
    by_cases hc : ∃ row ∈ rows, Condemns stream current row.payload
    · rw [hcondemned hc] at hp
      cases hp
    · by_cases hn : ∃ row ∈ rows, Names stream shard row.payload
      · rw [hnamed hc hn, ← positionAfter_some] at hp
        obtain ⟨span, ⟨⟨row, hrow, hskips⟩, hordered⟩, hlast⟩ := resumePoint_mem (positionAfter_injective hp)
        exact .inl ⟨row, hrow, span, hskips, hordered, hlast⟩
      · rw [hother hc hn] at hp
        exact .inr ⟨hp, fun row hrow hname => hn ⟨row, hrow, hname⟩⟩
  · by_cases hc : ∃ row ∈ rows, Condemns stream current row.payload
    · exact ⟨none, fun default' => (startPositionFor_eq stream current rows shard default').1 hc⟩
    · refine ⟨_, fun default' => (startPositionFor_eq stream current rows shard default').2.1 hc ?_⟩
      obtain ⟨row, hrow, hname | hunreadable | hcorrupt⟩ := hevidence
      · exact ⟨row, hrow, hname⟩
      · exact absurd ⟨row, hrow, .inr (.inl hunreadable)⟩ hc
      · exact absurd ⟨row, hrow, .inl hcorrupt⟩ hc
  · have hidle := startPositionFor_idle stream shard before after hrow default
    have hidle' := startPositionFor_idle stream shard before after hrow' default
    rw [hpos] at hidle
    rw [hpos'] at hidle'
    rcases hidle' with hsame' | htrim'
    · rcases hidle with hsame | htrim
      · exact .inl (hsame'.trans hsame.symm)
      · exact .inr (.inr ⟨htrim, hsame'⟩)
    · exact .inr (.inl htrim')

/-! ## A row that is not loaded -/

def clicks : Utf8 := ⟨ascii "clicks", Eq.refl true⟩

def shardZero : Utf8 := ⟨ascii "shard-0", Eq.refl true⟩

def spanJson (start last : Utf8) (prevLast : Json) : Json := .object [(startKey, .string start), (lastKey, .string last), (prevLastKey, prevLast)]

def clicksPayload (sequences : Json) : Json :=
  .object [(kindKey, .string kinesisStreamingKind), (streamPayloadKey, .string clicks), (sequencesPayloadKey, sequences),
    (streamCreationPayloadKey, .ofI64 7)]

/-- From 1 to 2, where consumption began. -/
def anchorJson : Json := spanJson ⟨ascii "1", Eq.refl true⟩ ⟨ascii "2", Eq.refl true⟩ .null

def loadedAnchor : FrontierRowEvidence := ⟨clicksPayload (.object [(shardZero, anchorJson)]), true⟩

def unloadedAnchor : FrontierRowEvidence := ⟨clicksPayload (.object [(shardZero, anchorJson)]), false⟩

def unloadedCorrupt : FrontierRowEvidence := ⟨clicksPayload .null, false⟩

theorem startPositionFor_loadedAnchor :
    (foldResumeFrontier [loadedAnchor] clicks (some 7)).startPositionFor shardZero .latest = .afterSequenceNumber seqTwo := by decide +kernel

theorem frontier_grants_no_skip_clicks :
    (∃ row ∈ [loadedAnchor], ∃ span, Skips clicks (some 7) shardZero row span ∧ span.start ≤ span.last ∧ span.last = seqTwo) ∧
    (∃ point, ∀ default', (foldResumeFrontier [loadedAnchor] clicks (some 7)).startPositionFor shardZero default' = positionAfter point) ∧
    ∃ position position', position = StartPosition.trimHorizon ∧
      (position' = position ∨ position' = .trimHorizon ∨ position = .trimHorizon ∧
        position' = (foldResumeFrontier [loadedAnchor] clicks (some 7)).startPositionFor shardZero .latest) := by
  obtain ⟨hcovered, hevidence, hidle⟩ := frontier_grants_no_skip clicks (some 7) shardZero .latest
  refine ⟨?_, hevidence [loadedAnchor] ⟨loadedAnchor, mem_cons_self, .inl ⟨by decide +kernel, _, _, rfl, rfl⟩⟩,
    .trimHorizon, .afterSequenceNumber seqTwo, rfl, ?_⟩
  · rcases hcovered [loadedAnchor] seqTwo startPositionFor_loadedAnchor with hspan | ⟨hdefault, -⟩
    · exact hspan
    · cases hdefault
  · exact hidle [loadedAnchor] [] unloadedCorrupt unloadedAnchor (.inl rfl) (.inl rfl) _ _ (by decide +kernel) (by decide +kernel)

/-- A row that is not loaded floors the shard while its checkpoint cannot be read, and no
longer once it can. -/
theorem unloaded_row_lifts : ¬ ∀ (stream : Utf8) (current : Option Int64) (shard : Utf8) (default : StartPosition)
    (before after : List FrontierRowEvidence) (row row' : FrontierRowEvidence), row.loaded = false → row'.loaded = false →
    ∀ position position', (foldResumeFrontier (before ++ row :: after) stream current).startPositionFor shard default = position →
      (foldResumeFrontier (before ++ row' :: after) stream current).startPositionFor shard default = position' →
      position' = position ∨ position' = .trimHorizon ∨ position = .trimHorizon ∧ position' = default := by
  intro h
  have hlifted := h clicks (some 7) shardZero .latest [loadedAnchor] [] unloadedCorrupt unloadedAnchor rfl rfl .trimHorizon
    (.afterSequenceNumber seqTwo) (by decide +kernel) (by decide +kernel)
  simp at hlifted

end FerroDruid.Kinesis
