import FerroDruid.Sql.AliasKeys
/-!
# Hidden aggregations have names of their own

The counter that numbers hidden names never gives one twice.
-/

namespace FerroDruid.Sql.Grouped

open Lib List

theorem Tag.text_noDigit (tag : Tag) : ∀ b ∈ tag.text, isDigit b = false := by cases tag <;> decide

theorem Tag.text_injective : Function.Injective Tag.text := by
  intro tag tag' h
  cases tag <;> cases tag' <;> first | rfl | exact absurd h (by decide)

/-- A hidden name ends in its number, and has no other digits. -/
theorem span_hiddenName (tag : Tag) (n : ℕ) :
    (hiddenName tag n).bytes.takeWhile (fun b => !isDigit b) = tag.text ∧ (hiddenName tag n).bytes.dropWhile (fun b => !isDigit b) = decimal n := by
  have hbytes : (hiddenName tag n).bytes = tag.text ++ decimal n := rfl
  have htext : ∀ b ∈ tag.text, (!isDigit b) = true := by
    intro b hb
    rw [tag.text_noDigit b hb]
    rfl
  obtain ⟨b, bs, hdecimal⟩ := exists_cons_of_ne_nil (decimal_ne_nil n)
  have hdigit : isDigit b = true := isDigit_of_mem_decimal (hdecimal ▸ mem_cons_self)
  rw [hbytes, takeWhile_append_of_pos htext, dropWhile_append_of_pos htext, hdecimal]
  simp [hdigit]

theorem hiddenName_inj {tag tag' : Tag} {n n' : ℕ} : hiddenName tag n = hiddenName tag' n' ↔ tag = tag' ∧ n = n' := by
  constructor
  · intro h
    obtain ⟨htext, hdecimal⟩ := span_hiddenName tag n
    obtain ⟨htext', hdecimal'⟩ := span_hiddenName tag' n'
    rw [h] at htext hdecimal
    exact ⟨Tag.text_injective (htext.symm.trans htext'), decimal_injective (hdecimal.symm.trans hdecimal')⟩
  · rintro ⟨rfl, rfl⟩
    rfl

/-- Aggregations with hidden names of their own, numbered from `lo` on and below `hi`. -/
structure Numbered (lo hi : ℕ) (specs : List AggregatorSpec) : Prop where
  le : lo ≤ hi
  nodup : (specs.map AggregatorSpec.name).Nodup
  within : ∀ spec ∈ specs, ∃ tag n, lo ≤ n ∧ n < hi ∧ spec.name = hiddenName tag n

namespace Numbered

variable {lo mid hi : ℕ} {specs specs' : List AggregatorSpec}

theorem nil (h : lo ≤ hi) : Numbered lo hi [] := ⟨h, nodup_nil, nofun⟩

theorem singleton {tag : Tag} {n : ℕ} (aggregate : Aggregate) (hlo : lo ≤ n) (hhi : n < hi) : Numbered lo hi [⟨hiddenName tag n, aggregate⟩] where
  le := by omega
  nodup := nodup_singleton _
  within := by
    intro spec hspec
    obtain rfl := mem_singleton.1 hspec
    exact ⟨tag, n, hlo, hhi, rfl⟩

theorem append (h : Numbered lo mid specs) (h' : Numbered mid hi specs') : Numbered lo hi (specs ++ specs') where
  le := h.le.trans h'.le
  nodup := by
    rw [map_append]
    refine List.Nodup.append h.nodup h'.nodup ?_
    intro name hname hname'
    obtain ⟨spec, hspec, rfl⟩ := mem_map.1 hname
    obtain ⟨spec', hspec', hsame⟩ := mem_map.1 hname'
    obtain ⟨tag, n, -, hn, hspecName⟩ := h.within spec hspec
    obtain ⟨tag', n', hn', -, hspecName'⟩ := h'.within spec' hspec'
    rw [hspecName, hspecName', hiddenName_inj] at hsame
    omega
  within := by
    intro spec hspec
    rcases mem_append.1 hspec with hspec | hspec
    · obtain ⟨tag, n, hlo, hhi, hname⟩ := h.within spec hspec
      exact ⟨tag, n, hlo, hhi.trans_le h'.le, hname⟩
    · obtain ⟨tag, n, hlo, hhi, hname⟩ := h'.within spec hspec
      exact ⟨tag, n, h.le.trans hlo, hhi, hname⟩

theorem mono (h : Numbered lo mid specs) (hle : mid ≤ hi) : Numbered lo hi specs := by
  simpa using h.append (.nil hle)

end Numbered

theorem numbered_avgHelpers (n : ℕ) (field : Utf8) : Numbered n (n + 1) (avgHelpers n field) where
  le := Nat.le_succ n
  nodup := by
    rw [avgHelpers, map_cons, map_singleton, nodup_cons]
    refine ⟨?_, nodup_singleton _⟩
    rw [mem_singleton, hiddenName_inj]
    simp
  within := by
    intro spec hspec
    rw [avgHelpers, mem_cons, mem_singleton] at hspec
    rcases hspec with rfl | rfl
    · exact ⟨.avgSum, n, le_rfl, Nat.lt_succ_self n, rfl⟩
    · exact ⟨.avgCount, n, le_rfl, Nat.lt_succ_self n, rfl⟩

section

variable (planner : Planner)

theorem numbered_operandHelpers (n : ℕ) (e : SelectExpr) : Numbered n (n + ticks planner e) (operandHelpers planner n e) := by
  induction e generalizing n with
  | column name => exact .nil (Nat.le_add_right ..)
  | constant value => exact .nil (Nat.le_add_right ..)
  | aggregate func arg distinct =>
    have hplain : ∀ used, 0 < used → Numbered n (n + used)
        ((plainAggregate planner func arg distinct).map fun aggregate => AggregatorSpec.mk (hiddenName .agg n) aggregate).toList := by
      intro used hused
      cases plainAggregate planner func arg distinct with
      | none => exact .nil (Nat.le_add_right ..)
      | some aggregate => exact .singleton aggregate le_rfl (by omega)
    cases func with
    | avg =>
      cases arg with
      | column field => exact (Numbered.nil (Nat.le_succ n)).append (numbered_avgHelpers (n + 1) field)
      | _ => exact hplain 2 (by decide)
    | count =>
      cases distinct with
      | false => cases arg <;> exact hplain 1 Nat.one_pos
      | true =>
        cases hexact : planner.exactCountDistinct <;> cases arg <;> simp only [operandHelpers, ticks, hexact, Bool.false_eq_true, if_true, if_false]
        all_goals first | exact hplain _ (by decide) | exact .singleton _ (by omega) (by omega)
    | _ => exact hplain 1 Nat.one_pos
  | binaryOp left op right ihleft ihright =>
    refine ((ihleft n).append (ihright (n + ticks planner left))).mono ?_
    rw [ticks]
    omega

theorem numbered_entry (index n : ℕ) (projection : Projection) :
    Numbered n (n + (entry planner index n projection).2) (entry planner index n projection).1.helpers := by
  unfold entry
  split
  · exact .nil le_rfl
  · exact .nil le_rfl
  · split
    · exact .nil le_rfl
    · split
      · exact numbered_avgHelpers n _
      · exact .singleton _ le_rfl (Nat.lt_succ_self n)
      · exact .nil le_rfl
  · split
    · refine ((numbered_operandHelpers planner n _).append (numbered_operandHelpers planner _ _)).mono ?_
      dsimp only
      split <;> omega
    · exact .nil le_rfl

theorem numbered_entries (index n : ℕ) (projections : List Projection) :
    ∃ hi, Numbered n hi ((entries planner index n projections).flatMap Entry.helpers) := by
  induction projections generalizing index n with
  | nil => exact ⟨n, .nil le_rfl⟩
  | cons projection projections ih =>
    obtain ⟨hi, hrest⟩ := ih _ _
    exact ⟨hi, (numbered_entry planner index n projection).append hrest⟩

/-- No two hidden aggregations of a SELECT list share a name. -/
theorem nodup_helpers (projections : List Projection) : (((entries planner 0 0 projections).flatMap Entry.helpers).map AggregatorSpec.name).Nodup := by
  obtain ⟨hi, h⟩ := numbered_entries planner 0 0 projections
  exact h.nodup

end

/-! ## When an alias changes what a column means

A planned query is faithful when every output column carries the value of its projection.
It is exactly where no two of the names that meet in the query stand for different things. -/

variable {planner : Planner} {select : Select} {planned : PlannedQuery}

/-- What the query is for: every output column carries the value of its projection, every
key is bound to the column it names, and no aggregation is shadowed. -/
structure Faithful (planner : Planner) (select : Select) (planned : PlannedQuery) : Prop where
  outputs : List.Forall₂ (fun name projection => planned.event name = some (meaning planner projection.expr)) planned.outputColumns select.projections
  keys : ∀ scanned, scanProjections planner select.projections = .ok scanned →
    ∀ key ∈ namedKeys planner.schema select, (resolveDimBinding scanned.selectItems key.1).1 = key.2
  unshadowed : (planned.aggregations.map AggregatorSpec.name).Nodup

/-- The names of the query, its labels and those that the planner makes up, are told apart. -/
structure Unambiguous (planner : Planner) (select : Select) : Prop where
  /-- whatever is no aggregate is a column -/
  columns : ∀ e ∈ entries planner 0 0 select.projections, e.isDimension = true → ∃ column, e.projection.column? = some column
  /-- every column that is selected is grouped by -/
  grouped : ∀ projection ∈ select.projections, ∀ column, projection.column? = some column → column ∈ (namedKeys planner.schema select).map Prod.snd
  /-- the first selected column with the name of a key is the column it names -/
  keys : ∀ key ∈ namedKeys planner.schema select, ∀ projection, select.projections.find? (Projection.answersTo key.1) = some projection →
    projection.column? = some key.2
  /-- what is output under one name is one thing -/
  names : ∀ e ∈ entries planner 0 0 select.projections, ∀ e' ∈ entries planner 0 0 select.projections, e.name = e'.name →
    meaning planner e.projection.expr = meaning planner e'.projection.expr
  /-- no two visible aggregations have one name -/
  visible : (((entries planner 0 0 select.projections).filterMap Entry.spec?).map AggregatorSpec.name).Nodup
  /-- no column and no visible aggregation is called like a hidden one -/
  hidden : ∀ e ∈ entries planner 0 0 select.projections, e.isComputed = false →
    ∀ spec ∈ (entries planner 0 0 select.projections).flatMap Entry.helpers, e.name ≠ spec.name

/-! ## The fields of a group -/

/-- A plan's aggregations and post-aggregations, by the entries of its projections. -/
structure Built (planner : Planner) (es : List Entry) (planned : PlannedQuery) : Prop where
  aggregations : planned.aggregations = es.filterMap Entry.spec? ++ es.flatMap Entry.helpers
  posts : List.Forall₂ (Computes planner) planned.postAggregations (es.filter Entry.isComputed)
  classified : ∀ e ∈ es, e.Classified planner

def computedFields (planner : Planner) (es : List Entry) : List (Utf8 × Option Meaning) :=
  (es.filter Entry.isComputed).map fun e => (e.name, some (meaning planner e.projection.expr))

def PlannedQuery.dimensionFields (planned : PlannedQuery) : List (Utf8 × Option Meaning) :=
  planned.dimensions.map fun d => (d.outputName, some (.column d.dimension))

def PlannedQuery.aggregationFields (planned : PlannedQuery) : List (Utf8 × Option Meaning) :=
  planned.aggregations.map fun spec => (spec.name, some (.aggregate spec.aggregate))

theorem aggregationFields_names : planned.aggregationFields.map Prod.fst = planned.aggregations.map AggregatorSpec.name := by
  rw [PlannedQuery.aggregationFields, map_map]
  rfl

theorem aggregated_eq : planned.aggregated = writeAll (writeAll (fun _ => none) planned.dimensionFields) planned.aggregationFields :=
  writeAll_append ..

theorem aggregated_spec (hnodup : (planned.aggregations.map AggregatorSpec.name).Nodup) : planned.aggregated.Holds planned.aggregations := by
  intro spec hspec
  rw [aggregated_eq]
  exact writeAll_of_nodup (aggregationFields_names ▸ hnodup) (mem_map_of_mem hspec)

theorem computes_isComputed {posts : List PostAggregatorSpec} {es : List Entry} (h : List.Forall₂ (Computes planner) posts es) :
    ∀ e ∈ es, (meaning planner e.projection.expr).isComputed = true := by
  induction h with
  | nil => exact nofun
  | cons hpost _ ih => exact forall_mem_cons.2 ⟨hpost.computed, ih⟩

/-- Where the hidden aggregations are what they stand for, so are the post-aggregations. -/
theorem computes_fields {posts : List PostAggregatorSpec} {es : List Entry} {event : Event} (h : List.Forall₂ (Computes planner) posts es)
    (hholds : ∀ e ∈ es, event.Holds e.helpers) :
    posts.map (fun post => (post.name, post.evaluate event)) = es.map fun e => (e.name, some (meaning planner e.projection.expr)) := by
  induction h with
  | nil => rfl
  | cons hpost _ ih =>
    obtain ⟨he, hes⟩ := forall_mem_cons.1 hholds
    rw [map_cons, map_cons, ih hes, hpost.name, hpost.evaluate event he]

namespace Built

variable {es : List Entry} {e : Entry} {name : Utf8} (h : Built planner es planned)

include h

theorem isComputed_meaning (he : e ∈ es) (hcomputed : e.isComputed = true) : (meaning planner e.projection.expr).isComputed = true :=
  computes_isComputed h.posts e (mem_filter.2 ⟨he, hcomputed⟩)

theorem spec_of_plain {aggregate : Aggregate} (he : e ∈ es) (hplain : e.plain = some aggregate) : ⟨e.name, aggregate⟩ ∈ planned.aggregations := by
  rw [h.aggregations]
  exact mem_append_left _ (mem_filterMap.2 ⟨e, he, by rw [Entry.spec?, hplain]; rfl⟩)

/-- With no aggregation shadowed, the post-aggregations are the meanings of their projections. -/
theorem event_eq (hnodup : (planned.aggregations.map AggregatorSpec.name).Nodup) :
    planned.event = writeAll (writeAll (writeAll (fun _ => none) planned.dimensionFields) planned.aggregationFields) (computedFields planner es) := by
  have hholds : ∀ e ∈ es.filter Entry.isComputed, planned.aggregated.Holds e.helpers := by
    intro e he spec hspec
    refine aggregated_spec hnodup spec ?_
    rw [h.aggregations]
    exact mem_append_right _ (mem_flatMap.2 ⟨e, (mem_filter.1 he).1, hspec⟩)
  rw [PlannedQuery.event, computes_fields h.posts hholds, aggregated_eq]
  rfl

variable {m : Meaning}

theorem mem_computedFields (hfield : (name, some m) ∈ computedFields planner es) :
    m.isComputed = true ∧ ∃ e ∈ es, e.isComputed = true ∧ e.name = name ∧ meaning planner e.projection.expr = m := by
  obtain ⟨e, he, hsame⟩ := mem_map.1 hfield
  obtain ⟨he, hcomputed⟩ := mem_filter.1 he
  obtain ⟨rfl, hm⟩ := Prod.mk.inj hsame
  obtain rfl := Option.some.inj hm
  exact ⟨h.isComputed_meaning he hcomputed, e, he, hcomputed, rfl, rfl⟩

section

variable (hnodup : (planned.aggregations.map AggregatorSpec.name).Nodup)

include hnodup

/-- Where a field is from: the last of the three that write it. -/
theorem event_cases (hevent : planned.event name = some m) :
    (name, some m) ∈ computedFields planner es ∨ (name, some m) ∈ planned.aggregationFields ∨
      ((name, some m) ∈ planned.dimensionFields ∧ name ∉ planned.aggregations.map AggregatorSpec.name) := by
  rw [h.event_eq hnodup] at hevent
  obtain hcomputed | ⟨-, hcomputed⟩ := writeAll_cases (writeAll (writeAll (fun _ => none) planned.dimensionFields) planned.aggregationFields)
    (computedFields planner es) name
  · exact .inl (hevent ▸ hcomputed)
  rw [hcomputed] at hevent
  obtain haggregation | ⟨hnone, haggregation⟩ := writeAll_cases (writeAll (fun _ => none) planned.dimensionFields) planned.aggregationFields name
  · exact .inr (.inl (hevent ▸ haggregation))
  rw [haggregation] at hevent
  obtain hdimension | ⟨-, hdimension⟩ := writeAll_cases (fun _ => none) planned.dimensionFields name
  · exact .inr (.inr ⟨hevent ▸ hdimension, aggregationFields_names ▸ hnone⟩)
  · rw [hdimension] at hevent
    cases hevent

theorem dimension_of_event {column : Utf8} (hevent : planned.event name = some (.column column)) :
    (∃ d ∈ planned.dimensions, d.dimension = column ∧ d.outputName = name) ∧ name ∉ planned.aggregations.map AggregatorSpec.name := by
  rcases h.event_cases hnodup hevent with hfield | hfield | ⟨hfield, hnone⟩
  · cases (h.mem_computedFields hfield).1
  · obtain ⟨spec, -, hsame⟩ := mem_map.1 hfield
    cases hsame
  · obtain ⟨d, hd, hsame⟩ := mem_map.1 hfield
    cases hsame
    exact ⟨⟨d, hd, rfl, rfl⟩, hnone⟩

theorem event_ne_expression {expr : SelectExpr} : planned.event name ≠ some (.expression expr) := by
  intro hevent
  rcases h.event_cases hnodup hevent with hfield | hfield | ⟨hfield, -⟩
  · cases (h.mem_computedFields hfield).1
  · obtain ⟨spec, -, hsame⟩ := mem_map.1 hfield
    cases hsame
  · obtain ⟨d, -, hsame⟩ := mem_map.1 hfield
    cases hsame

end

/-! ### Without ambiguity -/

section

variable (hnodup : (planned.aggregations.map AggregatorSpec.name).Nodup)

include hnodup

theorem event_computed (he : e ∈ es) (hcomputed : e.isComputed = true)
    (hnames : ∀ e' ∈ es, e'.name = e.name → meaning planner e'.projection.expr = meaning planner e.projection.expr) :
    planned.event e.name = some (meaning planner e.projection.expr) := by
  rw [h.event_eq hnodup]
  refine writeAll_eq (mem_map.2 ⟨e, mem_filter.2 ⟨he, hcomputed⟩, rfl⟩) fun w hw => ?_
  obtain ⟨e', he', hsame⟩ := mem_map.1 hw
  obtain ⟨hname, rfl⟩ := Prod.mk.inj hsame
  rw [hnames e' (mem_filter.1 he').1 hname]

/-- What is no post-aggregation is not written over by one. -/
theorem event_of_not_computed (hm : m.isComputed = false)
    (hnames : ∀ e ∈ es, e.name = name → meaning planner e.projection.expr = m) :
    planned.event name = writeAll (writeAll (fun _ => none) planned.dimensionFields) planned.aggregationFields name := by
  rw [h.event_eq hnodup]
  refine writeAll_of_notMem fun hmem => ?_
  obtain ⟨field, hfield, rfl⟩ := mem_map.1 hmem
  obtain ⟨e, he, rfl⟩ := mem_map.1 hfield
  obtain ⟨he, hcomputed⟩ := mem_filter.1 he
  have := h.isComputed_meaning he hcomputed
  rw [hnames e he rfl, hm] at this
  cases this

theorem event_plain {aggregate : Aggregate} (he : e ∈ es)
    (hplain : e.plain = some aggregate) (hnames : ∀ e' ∈ es, e'.name = e.name →
      meaning planner e'.projection.expr = meaning planner e.projection.expr) :
    planned.event e.name = some (meaning planner e.projection.expr) := by
  have hmeaning := ((h.classified e he).plain aggregate hplain).2
  rw [h.event_of_not_computed (m := .aggregate aggregate) hnodup rfl fun e' he' hname =>
    (hnames e' he' hname).trans hmeaning, hmeaning, ← aggregated_eq]
  exact aggregated_spec hnodup _ (h.spec_of_plain he hplain)

theorem event_column {column : Utf8} (hcolumn : e.projection.column? = some column)
    (hnames : ∀ e' ∈ es, e'.name = e.name → meaning planner e'.projection.expr = meaning planner e.projection.expr)
    (hfree : e.name ∉ planned.aggregations.map AggregatorSpec.name) (hexists : ∃ d ∈ planned.dimensions, d.outputName = e.name)
    (hunique : ∀ d ∈ planned.dimensions, d.outputName = e.name → d.dimension = column) :
    planned.event e.name = some (meaning planner e.projection.expr) := by
  have hmeaning : meaning planner e.projection.expr = .column column := by
    rw [Projection.column?_eq_some.1 hcolumn]
    rfl
  rw [h.event_of_not_computed (m := .column column) hnodup rfl fun e' he' hname => (hnames e' he' hname).trans hmeaning, hmeaning,
    writeAll_of_notMem (aggregationFields_names ▸ hfree)]
  obtain ⟨d, hd, hname⟩ := hexists
  refine writeAll_eq (mem_map.2 ⟨d, hd, by rw [hname, hunique d hd hname]⟩) fun w hw => ?_
  obtain ⟨d', hd', hsame⟩ := mem_map.1 hw
  obtain ⟨hname', rfl⟩ := Prod.mk.inj hsame
  rw [hunique d' hd' hname']

end

end Built

theorem built_of_scans {scanned : Scanned} {es : List Entry} (hscans : Scans planner {} es scanned) (hclassified : ∀ e ∈ es, e.Classified planner)
    (haggregations : planned.aggregations = scanned.aggs.nativeAggregations) (hposts : planned.postAggregations = scanned.aggs.postAggs) :
    Built planner es planned where
  aggregations := by rw [haggregations, AggProjections.nativeAggregations, hscans.specs, hscans.hiddenSpecs]; rfl
  posts := by
    obtain ⟨posts, hall, hcomputes⟩ := hscans.postAggs
    rw [hposts, hall]
    exact hcomputes
  classified := hclassified

/-! ## Faithful and unambiguous -/

/-- What each output column carries, entry by entry. -/
theorem outputs_iff {scanned : Scanned} {rename : SelectOutputItem → Utf8} {R : Utf8 → Projection → Prop}
    (hscanned : scanProjections planner select.projections = .ok scanned) :
    List.Forall₂ R (scanned.selectItems.map rename) select.projections ↔
      ∀ e ∈ entries planner 0 0 select.projections, R (rename e.item) e.projection := by
  have hitems : scanned.selectItems = (entries planner 0 0 select.projections).map Entry.item := (scanProjections_scans hscanned).selectItems
  have hall : List.Forall₂ R (((entries planner 0 0 select.projections).map Entry.item).map rename)
      ((entries planner 0 0 select.projections).map Entry.projection) ↔
        ∀ e ∈ entries planner 0 0 select.projections, R (rename e.item) e.projection := by
    rw [map_map, forall₂_map_left_iff, forall₂_map_right_iff, forall₂_same]
    rfl
  rw [entries_projections] at hall
  rw [hitems, hall]

theorem Entry.Classified.column_of_item {e : Entry} {column output : Utf8} (h : e.Classified planner)
    (hcolumns : e.isDimension = true → ∃ column, e.projection.column? = some column) (hitem : e.item = .dimension column output) :
    e.projection.column? = some column ∧ output = e.name := by
  have hdimension : e.isDimension = true := by
    by_contra hnot
    rw [Entry.item, if_neg hnot] at hitem
    cases hitem
  obtain ⟨c, hc⟩ := hcolumns hdimension
  rw [(h.column c hc).1] at hitem
  cases hitem
  exact ⟨hc, rfl⟩

theorem unambiguous_of_faithful (hplan : planSelect planner select = .ok (.aggregating planned)) (h : Faithful planner select planned) :
    Unambiguous planner select := by
  obtain ⟨scanned, hscanned, haggregations, hposts, hbinds⟩ := planSelect_binds hplan
  have hclassified := entries_classified planner 0 0 select.projections
  have hbuilt := built_of_scans (scanProjections_scans hscanned) hclassified haggregations hposts
  have hitems : scanned.selectItems = (entries planner 0 0 select.projections).map Entry.item := (scanProjections_scans hscanned).selectItems
  obtain ⟨rename, hrenamed, hrename⟩ := hbinds.outputs
  have houtputs := h.outputs
  rw [hrenamed, outputs_iff hscanned] at houtputs
  have hcolumns : ∀ e ∈ entries planner 0 0 select.projections, e.isDimension = true → ∃ column, e.projection.column? = some column := by
    intro e he hdimension
    refine ((hclassified e he).dimension hdimension).resolve_right ?_
    rintro ⟨expr, hexpr⟩
    have hevent := houtputs e he
    rw [hexpr] at hevent
    exact hbuilt.event_ne_expression h.unshadowed hevent
  have hkeys : ((namedKeys planner.schema select).map fun key => resolveDimBinding scanned.selectItems key.1).map Prod.fst =
      (namedKeys planner.schema select).map Prod.snd := by
    rw [map_map]
    exact map_congr_left fun key hkey => h.keys scanned hscanned key hkey
  have hgrouped : ∀ e ∈ entries planner 0 0 select.projections, ∀ column, e.projection.column? = some column →
      column ∈ (namedKeys planner.schema select).map Prod.snd := by
    intro e he column hcolumn
    have hevent := houtputs e he
    rw [Projection.column?_eq_some.1 hcolumn] at hevent
    obtain ⟨⟨d, hd, rfl, -⟩, -⟩ := hbuilt.dimension_of_event h.unshadowed hevent
    obtain ⟨binding, hbinding, hdimension, -⟩ := hbinds.sound d hd
    rw [← hkeys, hdimension]
    exact mem_map_of_mem hbinding
  have hname : ∀ e ∈ entries planner 0 0 select.projections, planned.event e.name = some (meaning planner e.projection.expr) := by
    intro e he
    have hrenamed : rename e.item = e.name := by
      rw [← (hclassified e he).item]
      refine hrename e.item (hitems ▸ mem_map_of_mem he) fun column output hitem => ?_
      rw [hkeys]
      exact hgrouped e he column ((hclassified e he).column_of_item (hcolumns e he) hitem).1
    exact hrenamed ▸ houtputs e he
  have hunshadowed := h.unshadowed
  rw [hbuilt.aggregations, map_append, nodup_append'] at hunshadowed
  obtain ⟨hvisible, -, hdisjoint⟩ := hunshadowed
  refine ⟨hcolumns, ?_, ?_, ?_, hvisible, ?_⟩
  · intro projection hprojection column hcolumn
    rw [← @entries_projections planner 0 0 select.projections] at hprojection
    obtain ⟨e, he, rfl⟩ := mem_map.1 hprojection
    exact hgrouped e he column hcolumn
  · intro key hkey projection hfind
    have hfst := resolveDimBinding_fst hclassified hcolumns key.1
    rw [← hitems, h.keys scanned hscanned key hkey, entries_projections, hfind, Option.bind_some] at hfst
    have hanswers := find?_some hfind
    unfold Projection.answersTo at hanswers
    cases hcolumn : projection.column? with
    | none =>
      rw [hcolumn] at hanswers
      cases hanswers
    | some column => rw [hfst, hcolumn, Option.getD_some]
  · intro e he e' he' hsame
    have hevent := hname e he
    rw [hsame, hname e' he'] at hevent
    exact (Option.some.inj hevent).symm
  · intro e he hcomputed spec hspec hsame
    have hspecName : spec.name ∈ ((entries planner 0 0 select.projections).flatMap Entry.helpers).map AggregatorSpec.name := mem_map_of_mem hspec
    cases hplain : e.plain with
    | some aggregate =>
      refine hdisjoint (mem_map.2 ⟨⟨e.name, aggregate⟩, mem_filterMap.2 ⟨e, he, ?_⟩, rfl⟩) (hsame ▸ hspecName)
      rw [Entry.spec?, hplain]
      rfl
    | none =>
      have hdimension : e.isDimension = true := by simpa [Entry.isComputed, hplain] using hcomputed
      obtain ⟨column, hcolumn⟩ := hcolumns e he hdimension
      have hevent := hname e he
      rw [Projection.column?_eq_some.1 hcolumn] at hevent
      refine (hbuilt.dimension_of_event h.unshadowed hevent).2 ?_
      rw [hbuilt.aggregations, map_append, hsame]
      exact mem_append_right _ hspecName

theorem faithful_of_unambiguous (hplan : planSelect planner select = .ok (.aggregating planned)) (h : Unambiguous planner select) :
    Faithful planner select planned := by
  obtain ⟨scanned, hscanned, haggregations, hposts, hbinds⟩ := planSelect_binds hplan
  have hclassified := entries_classified planner 0 0 select.projections
  have hbuilt := built_of_scans (scanProjections_scans hscanned) hclassified haggregations hposts
  have hitems : scanned.selectItems = (entries planner 0 0 select.projections).map Entry.item := (scanProjections_scans hscanned).selectItems
  obtain ⟨rename, hrenamed, hrename⟩ := hbinds.outputs
  have hbound : ∀ key ∈ namedKeys planner.schema select, (resolveDimBinding scanned.selectItems key.1).1 = key.2 := by
    intro key hkey
    have hfst := resolveDimBinding_fst hclassified h.columns key.1
    rw [← hitems, entries_projections] at hfst
    cases hfind : select.projections.find? (Projection.answersTo key.1) with
    | some projection => rw [hfst, hfind, Option.bind_some, h.keys key hkey projection hfind, Option.getD_some]
    | none =>
      obtain ⟨groupKey, -, hnamed⟩ := mem_filterMap.1 hkey
      rw [hfst, hfind, namedKey_unanswered hnamed hfind]
      rfl
  have hkeys : ((namedKeys planner.schema select).map fun key => resolveDimBinding scanned.selectItems key.1).map Prod.fst =
      (namedKeys planner.schema select).map Prod.snd := by
    rw [map_map]
    exact map_congr_left hbound
  have hunshadowed : (planned.aggregations.map AggregatorSpec.name).Nodup := by
    rw [hbuilt.aggregations, map_append]
    refine List.Nodup.append h.visible (nodup_helpers planner select.projections) ?_
    intro name hvisible hhidden
    obtain ⟨spec, hspec, rfl⟩ := mem_map.1 hvisible
    obtain ⟨e, he, hspec⟩ := mem_filterMap.1 hspec
    obtain ⟨aggregate, hplain, rfl⟩ := Option.map_eq_some_iff.1 hspec
    obtain ⟨helper, hhelper, hname⟩ := mem_map.1 hhidden
    refine h.hidden e he ?_ helper hhelper hname.symm
    rw [Entry.isComputed, hplain]
    rfl
  have hgrouped : ∀ e ∈ entries planner 0 0 select.projections, ∀ column, e.projection.column? = some column →
      column ∈ ((namedKeys planner.schema select).map fun key => resolveDimBinding scanned.selectItems key.1).map Prod.fst := by
    intro e he column hcolumn
    rw [hkeys]
    refine h.grouped e.projection ?_ column hcolumn
    rw [← @entries_projections planner 0 0 select.projections]
    exact mem_map_of_mem he
  have hname : ∀ e ∈ entries planner 0 0 select.projections, rename e.item = e.name := by
    intro e he
    rw [← (hclassified e he).item]
    refine hrename e.item (hitems ▸ mem_map_of_mem he) fun column output hitem => ?_
    exact hgrouped e he column ((hclassified e he).column_of_item (h.columns e he) hitem).1
  -- a selected column with the name of another has its column
  have hsame : ∀ e ∈ entries planner 0 0 select.projections, ∀ column, e.projection.column? = some column →
      ∀ column', .dimension column' e.name ∈ scanned.selectItems → column' = column := by
    intro e he column hcolumn column' hitem
    obtain ⟨e', he', hitem⟩ := mem_map.1 (hitems ▸ hitem)
    obtain ⟨hcolumn', hname'⟩ := (hclassified e' he').column_of_item (h.columns e' he') hitem
    have hmeaning := h.names e' he' e he hname'.symm
    rw [Projection.column?_eq_some.1 hcolumn, Projection.column?_eq_some.1 hcolumn'] at hmeaning
    exact Meaning.column.inj hmeaning
  have hevent : ∀ e ∈ entries planner 0 0 select.projections, planned.event e.name = some (meaning planner e.projection.expr) := by
    intro e he
    have hnames := fun e' he' hname => h.names e' he' e he hname
    cases hplain : e.plain with
    | some aggregate => exact hbuilt.event_plain hunshadowed he hplain hnames
    | none =>
      cases hdimension : e.isDimension with
      | false => exact hbuilt.event_computed hunshadowed he (by rw [Entry.isComputed, hplain, hdimension]; rfl) hnames
      | true =>
        obtain ⟨column, hcolumn⟩ := h.columns e he hdimension
        have hitem : .dimension column e.name ∈ scanned.selectItems := by
          rw [hitems, ← ((hclassified e he).column column hcolumn).1]
          exact mem_map_of_mem he
        refine hbuilt.event_column hunshadowed hcolumn hnames ?_ (hbinds.complete column e.name hitem (hgrouped e he column hcolumn)) ?_
        · rw [hbuilt.aggregations, map_append, mem_append, not_or]
          refine ⟨fun hvisible => ?_, fun hhidden => ?_⟩
          · obtain ⟨spec, hspec, hspecName⟩ := mem_map.1 hvisible
            obtain ⟨e', he', hspec⟩ := mem_filterMap.1 hspec
            obtain ⟨aggregate, hplain', rfl⟩ := Option.map_eq_some_iff.1 hspec
            have hmeaning := h.names e' he' e he hspecName
            rw [((hclassified e' he').plain aggregate hplain').2, Projection.column?_eq_some.1 hcolumn] at hmeaning
            cases hmeaning
          · obtain ⟨helper, hhelper, hhelperName⟩ := mem_map.1 hhidden
            refine h.hidden e he ?_ helper hhelper hhelperName.symm
            rw [Entry.isComputed, hdimension, Bool.not_true, Bool.and_false]
        · intro d hd hdName
          obtain ⟨binding, hbinding, hdColumn, houtput | houtput⟩ := hbinds.sound d hd
          · obtain ⟨key, -, rfl⟩ := mem_map.1 hbinding
            rw [hdName] at houtput
            rw [hdColumn]
            rcases resolveDimBinding_cases scanned.selectItems key.1 with hfound | ⟨hnone, habsent⟩
            · rw [← houtput] at hfound
              exact hsame e he column hcolumn _ hfound
            · rw [hnone] at houtput
              exact absurd houtput (habsent column e.name hitem).2
          · rw [hdName] at houtput
            exact hsame e he column hcolumn d.dimension houtput
  refine ⟨?_, ?_, hunshadowed⟩
  · rw [hrenamed, outputs_iff hscanned]
    intro e he
    rw [hname e he]
    exact hevent e he
  · intro scanned' hscanned' key hkey
    obtain rfl : scanned = scanned' := Except.ok.inj (hscanned.symm.trans hscanned')
    exact hbound key hkey

/-- Aliases change what no column means exactly where the query's names are told apart. -/
theorem faithful_iff_unambiguous (hplan : planSelect planner select = .ok (.aggregating planned)) :
    Faithful planner select planned ↔ Unambiguous planner select :=
  ⟨unambiguous_of_faithful hplan, faithful_of_unambiguous hplan⟩

/-! ## Queries -/

def word (name : String) (h : ∀ b ∈ ascii name, b < 0x80 := by decide) : Utf8 := .ofAscii (ascii name) h

/-- A table of visits. -/
def visits : Planner where
  schema := { dimensions := [(word "a", .string), (word "b", .string)], metrics :=
    [(word "x", .double), (word "y", .double)], timeColumn := word "__time" }
  legacyNullMode := false
  exactCountDistinct := false

def grouped (projections : List Projection) (groupBy : List GroupKey) : Select where
  projections := projections
  filter := none
  groupBy := groupBy
  groupingSets := none
  having := none
  orderBy := []
  limit := none

/-- `SELECT a AS city, SUM(x) AS total, AVG(y) … GROUP BY a` -/
def totals : Select :=
  grouped [⟨.column (word "a"), some (word "city")⟩, ⟨.aggregate .sum (.column (word "x")) false, some (word "total")⟩,
    ⟨.aggregate .avg (.column (word "y")) false, none⟩] [.column (word "a")]

theorem unambiguous_totals : Unambiguous visits totals where
  columns := by
    have h : ∀ e ∈ entries visits 0 0 totals.projections, e.isDimension = true → e.projection.column?.isSome = true := by decide
    exact fun e he hdim => Option.isSome_iff_exists.1 (h e he hdim)
  grouped projection hprojection column hcolumn := by
    have h : ∀ p ∈ totals.projections, ∀ c ∈ p.column?, c ∈ (namedKeys visits.schema totals).map Prod.snd := by decide
    exact h projection hprojection column hcolumn
  keys key hkey projection hprojection := by
    have h : ∀ key ∈ namedKeys visits.schema totals, ∀ p ∈ totals.projections.find? (Projection.answersTo key.1), p.column? = some key.2 := by decide
    exact h key hkey projection hprojection
  names := by decide
  visible := by decide
  hidden := by decide

theorem faithful_iff_unambiguous_totals : ∃ planned, planSelect visits totals = .ok (.aggregating planned) ∧
    planned.dimensions = [⟨word "a", word "city"⟩] ∧ Faithful visits totals planned :=
  ⟨_, rfl, rfl, (faithful_iff_unambiguous rfl).2 unambiguous_totals⟩

/-- `SELECT a AS b, b AS a, COUNT(*) … GROUP BY a, b` -/
def swapped : Select :=
  grouped [⟨.column (word "a"), some (word "b")⟩, ⟨.column (word "b"), some (word "a")⟩, ⟨.aggregate .count .star false, none⟩]
    [.column (word "a"), .column (word "b")]

/-- `SELECT SUM(x) AS "$avg_sum_0", AVG(y) …` -/
def shadowing : Select :=
  grouped [⟨.aggregate .sum (.column (word "x")) false, some (word "$avg_sum_0")⟩, ⟨.aggregate .avg (.column (word "y")) false, none⟩] []

theorem swapped_shadowing : (∃ planned, planSelect visits swapped = .ok (.aggregating planned) ∧ planned.dimensions = [⟨word "a", word "b"⟩] ∧
      planned.event (word "a") = none ∧ ¬Faithful visits swapped planned) ∧
    (∃ planned, planSelect visits shadowing = .ok (.aggregating planned) ∧ planned.event (word "$avg_sum_0") =
      some (.aggregate (.doubleSum (word "y"))) ∧
      ¬Faithful visits shadowing planned) := by
  refine ⟨⟨_, rfl, rfl, rfl, fun h => ?_⟩, ⟨_, rfl, rfl, fun h => ?_⟩⟩
  · exact absurd (h.keys _ rfl (word "b", word "b") (by decide)) (by decide)
  · exact absurd h.unshadowed (by decide)

end FerroDruid.Sql.Grouped
