import FerroDruid.Query.Segment
import FerroDruid.Aggregator.ScatterGather
/-!
# Aggregations and post-aggregations

What the executors share: the aggregators of a group, the values they are fed, and
the result map of a group. Merging result maps is `merge_agg_maps` of the broker.
-/

namespace FerroDruid.Query

open Lib Aggregator List

/-- An aggregation over longs; `count` has no field. -/
structure AggregatorSpec where
  name : String
  kind : IntegerSpec
  field : String
  deriving DecidableEq

namespace AggregatorSpec

def fieldName (spec : AggregatorSpec) : Option String := if spec.kind = .count then none else some spec.field

/-- `ensure_aggregations_not_multi_value` for one aggregation. -/
def ensureNotMultiValue (multiValue : String → Bool) (virtualColumns : VirtualColumns) (spec : AggregatorSpec) : Except DruidError Unit :=
  match spec.fieldName with
  | some field =>
    if field ∉ virtualColumns.names ∧ multiValue field = true then
      .error (.query ("aggregation over a multi-value dimension " ++ field ++
        " is not supported yet (element-wise MV aggregation is a follow-on)"))
    else .ok ()
  | none => .ok ()

/-- What a row gives an aggregator: a row map has all columns, and the legacy mode
reads a column that is missing as 0. -/
def fed (legacy : Bool) (spec : AggregatorSpec) (row : JsonMap) : Option Json :=
  match spec.fieldName with
  | none => some .null
  | some field =>
    match row field with
    | some value => some value
    | none => if legacy then some (.ofI64 0) else none

end AggregatorSpec

/-! ## Live aggregators -/

inductive LiveAggregator where
  | count (a : CountAggregator)
  | longSum (a : LongSumAggregator)
  | longMin (a : MinMaxAggregator)
  | longMax (a : MinMaxAggregator)

namespace LiveAggregator

def create : IntegerSpec → LiveAggregator
  | .count => count .new
  | .longSum => longSum .new
  | .longMin => longMin (.new Aggregator.longMin)
  | .longMax => longMax (.new Aggregator.longMax)

def aggregate (value : Option Json) : LiveAggregator → LiveAggregator
  | count a => count (a.aggregate value)
  | longSum a => longSum (a.aggregate value)
  | longMin a => longMin (a.aggregate Aggregator.longMin value)
  | longMax a => longMax (a.aggregate Aggregator.longMax value)

def get (legacy : Bool) : LiveAggregator → Json
  | count a => a.get
  | longSum a => a.get legacy
  | longMin a => a.get Aggregator.longMin legacy
  | longMax a => a.get Aggregator.longMax legacy

/-- Fed value by value, an aggregator has the result of all values. -/
theorem get_foldl (legacy : Bool) (kind : IntegerSpec) (values : List (Option Json)) :
    (values.foldl (fun a value => a.aggregate value) (create kind)).get legacy = run legacy kind values := by
  cases kind with
  | count => exact congrArg (get legacy) (foldl_hom count fun _ _ => rfl)
  | longSum => exact congrArg (get legacy) (foldl_hom longSum fun _ _ => rfl)
  | longMin => exact congrArg (get legacy) (foldl_hom longMin fun _ _ => rfl)
  | longMax => exact congrArg (get legacy) (foldl_hom longMax fun _ _ => rfl)

end LiveAggregator

/-- The aggregators of a group are fed row by row. -/
def feedRow (legacy : Bool) (aggregations : List AggregatorSpec) (aggs : List LiveAggregator) (row : JsonMap) : List LiveAggregator :=
  List.zipWith (fun spec agg => agg.aggregate (spec.fed legacy row)) aggregations aggs

theorem foldl_feedRow (legacy : Bool) (aggregations : List AggregatorSpec) (rows : List JsonMap) (init : AggregatorSpec → LiveAggregator) :
    rows.foldl (feedRow legacy aggregations) (aggregations.map init) =
      aggregations.map fun spec => (rows.map (spec.fed legacy)).foldl (fun a value => a.aggregate value) (init spec) := by
  induction rows generalizing init with
  | nil => rfl
  | cons row rows ih =>
    have hfeed : feedRow legacy aggregations (aggregations.map init) row = aggregations.map fun spec =>
      (init spec).aggregate (spec.fed legacy row) := by
      rw [feedRow, zipWith_map_right, zipWith_self]
    rw [foldl_cons, hfeed, ih]
    rfl

/-! ## Result maps -/

/-- The aggregation whose value stays under a name: the last one of that name. -/
def specByName (aggregations : List AggregatorSpec) (name : String) : Option AggregatorSpec :=
  aggregations.foldl (fun found spec => if spec.name = name then some spec else found) none

/-- The result map of values, one for each aggregation. -/
def valueMap (aggregations : List AggregatorSpec) (value : AggregatorSpec → Json) : JsonMap :=
  aggregations.foldl (fun m spec => m.insert spec.name (value spec)) .empty

theorem valueMap_apply (aggregations : List AggregatorSpec) (value : AggregatorSpec → Json) (name : String) :
    valueMap aggregations value name = (specByName aggregations name).map value := by
  suffices h : ∀ (m : JsonMap) (found : Option AggregatorSpec), m name = found.map value →
      aggregations.foldl (fun m spec => m.insert spec.name (value spec)) m name =
        (aggregations.foldl (fun found spec => if spec.name = name then some spec else found) found).map value from h .empty none rfl
  induction aggregations with
  | nil => exact fun _ _ h => h
  | cons spec aggregations ih =>
    intro m found h
    apply ih
    dsimp only
    by_cases hname : spec.name = name
    · rw [if_pos hname, hname, JsonMap.insert_self, Option.map_some]
    · rw [if_neg hname, JsonMap.insert_of_ne _ _ (Ne.symm hname), h]

/-- A post-aggregation: its value under a result map, a number or null. -/
structure PostAggregator where
  name : String
  validateSupported : Except DruidError Unit
  evaluate : JsonMap → Json

/-- All post-aggregations see the map as it was before. -/
def applyPostAggs (postAggs : List PostAggregator) (resultMap : JsonMap) : JsonMap :=
  postAggs.foldl (fun m pa => m.insert pa.name (pa.evaluate resultMap)) resultMap

/-- `merge_agg_maps`: values of aggregations are merged, others stay as they came first. -/
def mergeAggMaps (legacy : Bool) (aggregations : List AggregatorSpec) (dst src : JsonMap) : JsonMap := fun key =>
  match src key with
  | none => dst key
  | some srcVal =>
    match dst key with
    | none => some srcVal
    | some dstVal =>
      match specByName aggregations key with
      | some spec => some (mergeJsonBySpec legacy spec.kind dstVal srcVal)
      | none => some dstVal

/-! ## Merging the results of parts -/

variable {legacy : Bool} {aggregations : List AggregatorSpec} {postAggs : List PostAggregator}

theorem specByName_some {name : String} {spec : AggregatorSpec} (h : specByName aggregations name = some spec) :
    spec ∈ aggregations ∧ spec.name = name := by
  have key : ∀ (l : List AggregatorSpec) (found : Option AggregatorSpec),
      l.foldl (fun found spec => if spec.name = name then some spec else found) found = some spec →
        found = some spec ∨ spec ∈ l ∧ spec.name = name := by
    intro l
    induction l with
    | nil => exact fun found h => .inl h
    | cons first l ih =>
      intro found h
      rcases ih _ h with h | ⟨hmem, hname⟩
      · dsimp only at h
        split_ifs at h with hfirst
        · obtain rfl := Option.some.inj h
          exact .inr ⟨mem_cons_self .., hfirst⟩
        · exact .inl h
      · exact .inr ⟨mem_cons_of_mem _ hmem, hname⟩
  exact (key _ _ h).resolve_left nofun

/-- Post-aggregations read the aggregations and no other output, and do not take
their names. -/
def PlainPostAggs (aggregations : List AggregatorSpec) (postAggs : List PostAggregator) : Prop :=
  ∀ pa ∈ postAggs, (∀ spec ∈ aggregations, spec.name ≠ pa.name) ∧
    ∀ m m' : JsonMap, (∀ spec ∈ aggregations, m spec.name = m' spec.name) → pa.evaluate m = pa.evaluate m'

theorem foldl_insert_apply (value : PostAggregator → Json) (postAggs : List PostAggregator) (m : JsonMap) (name : String) :
    (∀ pa ∈ postAggs, pa.name ≠ name) ∧ postAggs.foldl (fun m pa => m.insert pa.name (value pa)) m name = m name ∨
      ∃ pa ∈ postAggs, pa.name = name ∧ ∀ m' : JsonMap, postAggs.foldl (fun m pa => m.insert pa.name (value pa)) m' name = some (value pa) := by
  induction postAggs generalizing m with
  | nil => exact .inl ⟨by simp, rfl⟩
  | cons first postAggs ih =>
    rcases ih (m.insert first.name (value first)) with ⟨hnone, heq⟩ | ⟨pa, hpa, hname, heq⟩
    · by_cases hfirst : first.name = name
      · refine .inr ⟨first, mem_cons_self .., hfirst, fun m' => ?_⟩
        rcases ih (m'.insert first.name (value first)) with ⟨-, heq'⟩ | ⟨pa, hpa, hname, -⟩
        · rw [foldl_cons, heq', ← hfirst, JsonMap.insert_self]
        · exact absurd hname (hnone pa hpa)
      · refine .inl ⟨forall_mem_cons.2 ⟨hfirst, hnone⟩, ?_⟩
        rw [foldl_cons, heq, JsonMap.insert_of_ne _ _ (Ne.symm hfirst)]
    · exact .inr ⟨pa, mem_cons_of_mem _ hpa, hname, fun m' => heq _⟩

variable {m : JsonMap}

/-- Maps that agree but for post-aggregations have the same ones. -/
theorem applyPostAggs_congr (hplain : PlainPostAggs aggregations postAggs) {m' : JsonMap}
    (h : ∀ name, (∀ pa ∈ postAggs, pa.name ≠ name) → m name = m' name) : applyPostAggs postAggs m = applyPostAggs postAggs m' := by
  have hvalue : ∀ pa ∈ postAggs, pa.evaluate m = pa.evaluate m' := fun pa hpa =>
    (hplain pa hpa).2 m m' fun spec hspec => h _ fun pa' hpa' => ((hplain pa' hpa').1 spec hspec).symm
  funext name
  unfold applyPostAggs
  rcases foldl_insert_apply (·.evaluate m) postAggs m name with ⟨hnone, heq⟩ | ⟨pa, hpa, hname, heq⟩
  · rcases foldl_insert_apply (·.evaluate m') postAggs m' name with ⟨-, heq'⟩ | ⟨pa, hpa, hname, -⟩
    · rw [heq, heq', h name hnone]
    · exact absurd hname (hnone pa hpa)
  · have hfold : postAggs.foldl (fun acc pa => acc.insert pa.name (pa.evaluate m')) m' =
        postAggs.foldl (fun acc pa => acc.insert pa.name (pa.evaluate m)) m' :=
      foldl_ext _ _ _ fun acc pa hpa => by rw [hvalue pa hpa]
    rw [hfold, heq, heq]

/-- The results of the aggregations over some rows. -/
def rowsMap (legacy : Bool) (aggregations : List AggregatorSpec) (rows : List JsonMap) : JsonMap :=
  valueMap aggregations fun spec => run legacy spec.kind (rows.map (spec.fed legacy))

theorem rowsMap_apply (rows : List JsonMap) (name : String) : rowsMap legacy aggregations rows name =
    (specByName aggregations name).map fun spec => run legacy spec.kind (rows.map (spec.fed legacy)) := valueMap_apply ..

theorem rowsMap_perm {rows rows' : List JsonMap} (h : rows.Perm rows') : rowsMap legacy aggregations rows = rowsMap legacy aggregations rows' := by
  have hrun : (fun spec : AggregatorSpec => run legacy spec.kind (rows.map (spec.fed legacy))) =
      fun spec => run legacy spec.kind (rows'.map (spec.fed legacy)) := funext fun spec => run_perm _ _ (h.map _)
  rw [rowsMap, rowsMap, hrun]

theorem mergeAggMaps_empty (m : JsonMap) : mergeAggMaps legacy aggregations .empty m = m := by
  funext key
  unfold mergeAggMaps
  cases m key <;> rfl

variable {maps : List JsonMap} {key : String}

theorem foldl_mergeAggMaps_none (hm : m key = none) (hmaps : ∀ map ∈ maps, map key = none) :
    maps.foldl (mergeAggMaps legacy aggregations) m key = none := by
  induction maps generalizing m with
  | nil => exact hm
  | cons map maps ih =>
    refine ih ?_ fun map' h => hmaps map' (mem_cons_of_mem _ h)
    rw [mergeAggMaps, hmaps map (mem_cons_self ..)]
    exact hm

theorem foldl_mergeAggMaps_some {spec : AggregatorSpec}
    (hspec : specByName aggregations key = some spec) {value : JsonMap → Json} {v : Json} (hm : m key = some v)
    (hmaps : ∀ map ∈ maps, map key = some (value map)) :
    maps.foldl (mergeAggMaps legacy aggregations) m key = some (maps.foldl (fun v map => mergeJsonBySpec legacy spec.kind v (value map)) v) := by
  induction maps generalizing m v with
  | nil => exact hm
  | cons map maps ih =>
    refine ih ?_ fun map' h => hmaps map' (mem_cons_of_mem _ h)
    simp [mergeAggMaps, hm, hmaps map (mem_cons_self ..), hspec]

/-- What is no aggregation stays as it came first. -/
theorem foldl_mergeAggMaps_kept (hspec : specByName aggregations key = none) {v : Json}
    (hm : m key = some v) : maps.foldl (mergeAggMaps legacy aggregations) m key = some v := by
  induction maps generalizing m with
  | nil => exact hm
  | cons map maps ih =>
    refine ih ?_
    unfold mergeAggMaps
    cases map key <;> simp [hm, hspec]

/-- A name that is not taken by a post-aggregation keeps its value. -/
theorem applyPostAggs_apply {name : String} (hname : ∀ pa ∈ postAggs, pa.name ≠ name) (m : JsonMap) : applyPostAggs postAggs m name = m name := by
  rcases foldl_insert_apply (·.evaluate m) postAggs m name with ⟨-, heq⟩ | ⟨pa, hpa, h, -⟩
  · exact heq
  · exact absurd h (hname pa hpa)

/-- Under each name, the results of parts merged one after the other. -/
theorem merged_apply {name : String} (hname : ∀ pa ∈ postAggs, pa.name ≠ name) (first : List JsonMap) (rest : List (List JsonMap)) :
    ((first :: rest).map fun rows => applyPostAggs postAggs (rowsMap legacy aggregations rows)).foldl (mergeAggMaps legacy aggregations) .empty name =
      (specByName aggregations name).map fun spec => (rest.map (·.map (spec.fed legacy))).foldl
        (fun v p => mergeJsonBySpec legacy spec.kind v (run legacy spec.kind p)) (run legacy spec.kind (first.map (spec.fed legacy))) := by
  have hpart : ∀ rows, applyPostAggs postAggs (rowsMap legacy aggregations rows) name =
      (specByName aggregations name).map fun spec => run legacy spec.kind (rows.map (spec.fed legacy)) := fun rows => by
    rw [applyPostAggs_apply hname, rowsMap_apply]
  rw [map_cons, foldl_cons, mergeAggMaps_empty]
  cases hspec : specByName aggregations name with
  | none =>
    refine foldl_mergeAggMaps_none (by rw [hpart, hspec]; rfl) fun map hmap => ?_
    obtain ⟨rows, -, rfl⟩ := mem_map.1 hmap
    rw [hpart, hspec]
    rfl
  | some spec =>
    have hvalue : ∀ map ∈ rest.map fun rows => applyPostAggs postAggs (rowsMap legacy aggregations rows), map name = some ((map name).getD .null) := by
      intro map hmap
      obtain ⟨rows, -, rfl⟩ := mem_map.1 hmap
      rw [hpart, hspec]
      rfl
    have hfirst : applyPostAggs postAggs (rowsMap legacy aggregations first) name =
        some (run legacy spec.kind (first.map (spec.fed legacy))) := by rw [hpart, hspec, Option.map_some]
    refine (foldl_mergeAggMaps_some hspec hfirst hvalue).trans ?_
    rw [foldl_map, Option.map_some, foldl_map]
    simp only [hpart, hspec, Option.map_some, Option.getD_some]

/-- Merged results of parts, with the post-aggregations computed again, are the
results of all rows exactly if every aggregation merges exactly. -/
theorem merged_parts_iff (hplain : PlainPostAggs aggregations postAggs) (first : List JsonMap) (rest : List (List JsonMap)) :
    applyPostAggs postAggs
        (((first :: rest).map fun rows => applyPostAggs postAggs (rowsMap legacy aggregations rows)).foldl (mergeAggMaps legacy aggregations) .empty) =
      applyPostAggs postAggs (rowsMap legacy aggregations (first :: rest).flatten) ↔
    ∀ name, ∀ spec ∈ specByName aggregations name, MergesExactly legacy spec.kind ((first :: rest).map (·.map (spec.fed legacy))) := by
  have hvalue : ∀ name, (∀ pa ∈ postAggs, pa.name ≠ name) →
      (((first :: rest).map fun rows => applyPostAggs postAggs (rowsMap legacy aggregations rows)).foldl
        (mergeAggMaps legacy aggregations) .empty name =
          rowsMap legacy aggregations (first :: rest).flatten name ↔
        ∀ spec ∈ specByName aggregations name, MergesExactly legacy spec.kind ((first :: rest).map (·.map (spec.fed legacy)))) := by
    intro name hname
    rw [merged_apply hname, rowsMap_apply]
    cases hspec : specByName aggregations name with
    | none => exact iff_of_true rfl nofun
    | some spec =>
      rw [Option.map_some, Option.map_some, Option.some_inj, map_flatten, map_cons, foldl_merge_iff]
      exact ⟨fun h spec' hspec' => Option.some.inj hspec' ▸ h, fun h => h spec rfl⟩
  constructor
  · intro heq name spec hspec
    obtain ⟨hmem, hspecName⟩ := specByName_some hspec
    have hname : ∀ pa ∈ postAggs, pa.name ≠ name := fun pa hpa h => (hplain pa hpa).1 spec hmem (hspecName.trans h.symm)
    have happly := congrFun heq name
    rw [applyPostAggs_apply hname, applyPostAggs_apply hname] at happly
    exact (hvalue name hname).1 happly spec hspec
  · intro h
    exact applyPostAggs_congr hplain fun name hname => (hvalue name hname).2 (h name)

theorem merged_parts (hplain : PlainPostAggs aggregations postAggs) (first : List JsonMap) (rest : List (List JsonMap))
    (hwithin : ∀ spec ∈ aggregations, WithinFloat legacy spec.kind ((first :: rest).map (·.map (spec.fed legacy)))) :
    applyPostAggs postAggs
        (((first :: rest).map fun rows => applyPostAggs postAggs (rowsMap legacy aggregations rows)).foldl (mergeAggMaps legacy aggregations) .empty) =
      applyPostAggs postAggs (rowsMap legacy aggregations (first :: rest).flatten) :=
  (merged_parts_iff hplain first rest).2 fun _ spec hspec => (hwithin spec (specByName_some hspec).1).mergesExactly

end FerroDruid.Query
