import FerroDruid.Aggregator.Integer
import FerroDruid.Lib.FloatOrder
import FerroDruid.Lib.Gather
import Mathlib.Data.Int.ConditionallyCompleteOrder
import Mathlib.Data.List.MinMax
/-!
# Scatter and gather

The broker merges the results of segments in pairs, as floats: sums are those
of all rows while they stay within 2 to the 53, and a minimum or maximum is that
of all rows as far as floats can tell.
-/

namespace FerroDruid.Aggregator

open Lib List

/-- The merged results of segments. -/
def gather (legacy : Bool) (spec : IntegerSpec) (tree : MergeTree (List (Option Json))) : Json :=
  tree.eval (run legacy spec) (mergeJsonBySpec legacy spec)

/-! ## What an aggregator computes -/

/-- The value a row has for an aggregator. -/
def extract : IntegerSpec → Option Json → Option Int64
  | .count => fun _ => some 1
  | .longSum => fun row => row.bind jsonAsI64Lossy
  | .longMin => fun row => row.bind Json.asI64
  | .longMax => fun row => row.bind Json.asI64

def combine : IntegerSpec → Int64 → Int64 → Int64
  | .count => fun a b => a + b
  | .longSum => fun a b => a + b
  | .longMin => fun a b => if b < a then b else a
  | .longMax => fun a b => if a < b then b else a

/-- The JSON of a total, and of no value at all. -/
def answer (legacy : Bool) (spec : IntegerSpec) : Option Int64 → Json
  | some v => .ofI64 v
  | none =>
    match spec with
    | .count => .ofI64 0
    | .longSum => if legacy then .ofI64 0 else .null
    | .longMin => if legacy then .ofI64 longMin.init else .null
    | .longMax => if legacy then .ofI64 longMax.init else .null

def rowsTotal (spec : IntegerSpec) (rows : List (Option Json)) : Option Int64 :=
  total (combine spec) (rows.filterMap (extract spec))

/-- A fold that follows the running total ends at the total. -/
theorem foldl_total {S : Type} {op : Int64 → Int64 → Int64} {step : S → Option Json → S} {value : Option Json → Option Int64}
    (ofTotal : Option Int64 → S)
    (hstep : ∀ acc row, step (ofTotal acc) row = ofTotal (match value row with | some v => Option.merge op acc (some v) | none => acc))
    (rows : List (Option Json)) : rows.foldl step (ofTotal none) = ofTotal (total op (rows.filterMap value)) := by
  suffices h : ∀ acc, rows.foldl step (ofTotal acc) =
      ofTotal ((rows.filterMap value).foldl (fun acc v => Option.merge op acc (some v)) acc) from h none
  induction rows with
  | nil => exact fun _ => rfl
  | cons row rows ih =>
    intro acc
    rw [foldl_cons, hstep, ih]
    cases hv : value row with
    | none => rw [filterMap_cons_none hv]
    | some v => rw [filterMap_cons_some hv, foldl_cons]

theorem minMax_get (m : MinMax) (op : Int64 → Int64 → Int64) (legacy : Bool) (hop : ∀ a b, op a b = if m.replaces b a then b else a)
    (rows : List (Option Json)) :
    (rows.foldl (MinMaxAggregator.aggregate m) (.new m)).get m legacy =
      match total op (rows.filterMap fun row => row.bind Json.asI64) with
      | some v => .ofI64 v
      | none => if legacy then .ofI64 m.init else .null := by
  have hfold := @foldl_total _ op (MinMaxAggregator.aggregate m) (fun row => row.bind Json.asI64)
    (fun acc => match acc with | some v => ⟨v, true⟩ | none => .new m) ?_ rows
  · rw [hfold]
    cases total op (rows.filterMap fun row => row.bind Json.asI64) <;> simp [MinMaxAggregator.get, MinMaxAggregator.new]
  · intro acc row
    unfold MinMaxAggregator.aggregate
    cases row.bind Json.asI64 <;> cases acc <;> simp [MinMaxAggregator.new, hop]

/-- One aggregator computes the total of its rows' values. -/
theorem run_eq (legacy : Bool) (spec : IntegerSpec) (rows : List (Option Json)) :
    run legacy spec rows = answer legacy spec (rowsTotal spec rows) := by
  unfold run rowsTotal answer
  cases spec with
  | count =>
    have hfold := @foldl_total _ (combine .count) CountAggregator.aggregate (extract .count)
      (fun acc => ⟨acc.getD 0⟩) ?_ rows
    · show (rows.foldl CountAggregator.aggregate ⟨(none : Option Int64).getD 0⟩).get = _
      rw [hfold]
      cases total (combine .count) (rows.filterMap (extract .count)) <;> rfl
    · intro acc row
      cases acc <;> simp [CountAggregator.aggregate, extract, combine]
  | longSum =>
    have hfold := @foldl_total _ (combine .longSum) LongSumAggregator.aggregate (extract .longSum)
      (fun acc => match acc with | some v => ⟨v, true⟩ | none => .new) ?_ rows
    · simp only
      rw [hfold]
      cases total (combine .longSum) (rows.filterMap (extract .longSum)) <;> simp [LongSumAggregator.get, LongSumAggregator.new]
    · intro acc row
      unfold LongSumAggregator.aggregate extract
      simp only
      cases row.bind jsonAsI64Lossy <;> cases acc <;> simp [LongSumAggregator.new, combine]
  | longMin => exact minMax_get longMin _ legacy (fun a b => by simp [combine, longMin]) rows
  | longMax => exact minMax_get longMax _ legacy (fun a b => by simp [combine, longMax]) rows

variable (a b : Int64)

theorem toInt_combine_min : (combine .longMin a b).toInt = min a.toInt b.toInt := by
  simp only [combine, Int64.lt_iff_toInt_lt]
  split <;> omega

theorem toInt_combine_max : (combine .longMax a b).toInt = max a.toInt b.toInt := by
  simp only [combine, Int64.lt_iff_toInt_lt]
  split <;> omega

instance (spec : IntegerSpec) : Std.Associative (combine spec) where
  assoc a b c := by
    cases spec with
    | count => exact Int64.add_assoc a b c
    | longSum => exact Int64.add_assoc a b c
    | longMin => simp only [← Int64.toInt_inj, toInt_combine_min, min_assoc]
    | longMax => simp only [← Int64.toInt_inj, toInt_combine_max, max_assoc]

instance (spec : IntegerSpec) : Std.Commutative (combine spec) where
  comm a b := by
    cases spec with
    | count => exact Int64.add_comm a b
    | longSum => exact Int64.add_comm a b
    | longMin => simp only [← Int64.toInt_inj, toInt_combine_min, min_comm]
    | longMax => simp only [← Int64.toInt_inj, toInt_combine_max, max_comm]

theorem rowsTotal_append (spec : IntegerSpec) (rows rows' : List (Option Json)) :
    rowsTotal spec (rows ++ rows') = Option.merge (combine spec) (rowsTotal spec rows) (rowsTotal spec rows') := by
  rw [rowsTotal, filterMap_append, total_append]
  rfl

/-- The order of the rows does not matter. -/
theorem run_perm (legacy : Bool) (spec : IntegerSpec) {rows rows' : List (Option Json)} (h : rows.Perm rows') :
    run legacy spec rows = run legacy spec rows' := by
  rw [run_eq, run_eq, rowsTotal, rowsTotal, total_perm (h.filterMap _)]

/-! ## Sums -/

/-- A sum that a float holds exactly. -/
def Exact (n : Int64) : Prop := n.toInt.natAbs ≤ 2 ^ 53

instance (n : Int64) : Decidable (Exact n) := inferInstanceAs (Decidable (n.toInt.natAbs ≤ 2 ^ 53))

theorem toInt_add_of_exact {a b : Int64} (ha : Exact a) (hb : Exact b) : (a + b).toInt = a.toInt + b.toInt := by
  unfold Exact at ha hb
  rw [Int64.toInt_add]
  exact Int.bmod_eq_of_le (by omega) (by omega)

/-- Two longs added as floats, and cut off at the ends of a long. -/
def addRounded (a b : Int64) : Int64 :=
  .ofInt (max (-2 ^ 63) (min (2 ^ 63 - 1) (F64.roundInt (F64.roundInt a.toInt + F64.roundInt b.toInt))))

variable (n : Int64)

theorem natAbs_lt : n.toInt.natAbs < 2 ^ 64 := by
  have := n.le_toInt
  have := n.toInt_lt
  omega

theorem mergeSum_ofI64 : mergeSum (.ofI64 a) (.ofI64 b) = .ofI64 (addRounded a b) := by
  have hrep : ∀ n : Int64, (F64.ofInt n.toInt).Represents (F64.roundInt n.toInt) := fun n =>
    F64.represents_ofInt (F64.isFinite_ofInt ((natAbs_lt n).trans (by norm_num)))
  have hfinite : ((F64.ofInt a.toInt).add (F64.ofInt b.toInt)).isFinite = true := by
    rcases (hrep a).add_eq (hrep b) with h | ⟨-, negative, h⟩
    · rw [h]
      have ha := F64.natAbs_roundInt_le a.toInt
      have hb := F64.natAbs_roundInt_le b.toInt
      have := natAbs_lt a
      have := natAbs_lt b
      exact F64.isFinite_ofInt (by omega)
    · rw [h]
      rfl
  have hsum := (hrep a).add (hrep b) hfinite
  unfold mergeSum addRounded
  simp only [Json.asF64_ofI64, Json.isI64_ofI64, F64.trunc_of_represents hsum, F64.beq_self_of_represents hsum,
    F64.toI64_of_represents hsum, Bool.true_or, Bool.and_self, if_true]

theorem addRounded_of_exact {a b : Int64} (ha : Exact a) (hb : Exact b) (hab : Exact (a + b)) : addRounded a b = a + b := by
  have hadd := toInt_add_of_exact ha hb
  unfold Exact at ha hb hab
  rw [addRounded, F64.roundInt_of_small ha, F64.roundInt_of_small hb, ← hadd, F64.roundInt_of_small hab,
    min_eq_right (by omega), max_eq_right (by omega), Int64.ofInt_toInt]

theorem mergeSum_exact {a b : Int64} (ha : Exact a) (hb : Exact b) (hab : Exact (a + b)) :
    mergeSum (.ofI64 a) (.ofI64 b) = .ofI64 (a + b) := by
  rw [mergeSum_ofI64, addRounded_of_exact ha hb hab]

theorem exact_zero : Exact 0 := by decide

/-- The merged sum, when no sum on the way is too large for a float. -/
theorem mergeSum_answer {legacy : Bool} {spec : IntegerSpec} (hspec : spec = .count ∨ spec = .longSum) {x y : Option Int64}
    (hx : ∀ n ∈ x, Exact n) (hy : ∀ n ∈ y, Exact n) (hxy : ∀ n ∈ Option.merge (combine spec) x y, Exact n) :
    mergeJsonBySpec legacy spec (answer legacy spec x) (answer legacy spec y) = answer legacy spec (Option.merge (combine spec) x y) := by
  have hzero_add : ∀ n, Exact n → mergeSum (.ofI64 0) (.ofI64 n) = .ofI64 n := by
    intro n hn
    rw [mergeSum_exact exact_zero hn (by rwa [Int64.zero_add]), Int64.zero_add]
  have hadd_zero : ∀ n, Exact n → mergeSum (.ofI64 n) (.ofI64 0) = .ofI64 n := by
    intro n hn
    rw [mergeSum_exact hn exact_zero (by rwa [Int64.add_zero]), Int64.add_zero]
  have hzero := hzero_add 0 exact_zero
  rcases hspec with rfl | rfl
  · cases x <;> cases y <;> simp only [mergeJsonBySpec, answer, Option.merge_none_left, Option.merge_none_right, Option.merge_some_some]
    · exact hzero
    · exact hzero_add _ (hy _ rfl)
    · exact hadd_zero _ (hx _ rfl)
    · exact mergeSum_exact (hx _ rfl) (hy _ rfl) (hxy _ rfl)
  · cases x <;> cases y <;> cases legacy <;>
      simp only [mergeJsonBySpec, answer, Option.merge_none_left, Option.merge_none_right, Option.merge_some_some, if_true,
        Bool.false_eq_true, if_false]
    · rfl
    · exact hzero
    · rfl
    · exact hzero_add _ (hy _ rfl)
    · rfl
    · exact hadd_zero _ (hx _ rfl)
    · exact mergeSum_exact (hx _ rfl) (hy _ rfl) (hxy _ rfl)
    · exact mergeSum_exact (hx _ rfl) (hy _ rfl) (hxy _ rfl)

theorem gather_sum {legacy : Bool} {spec : IntegerSpec} (hspec : spec = .count ∨ spec = .longSum) (tree : MergeTree (List (Option Json)))
    (hexact : ∀ t ∈ tree.subtrees, ∀ n ∈ rowsTotal spec t.parts.flatten, Exact n) :
    gather legacy spec tree = answer legacy spec (rowsTotal spec tree.parts.flatten) := by
  induction tree with
  | leaf part =>
    rw [gather, MergeTree.eval, run_eq, MergeTree.parts, flatten_singleton]
  | node left right ihl ihr =>
    have hroot := hexact _ (MergeTree.mem_subtrees_self _)
    simp only [MergeTree.subtrees, forall_mem_cons, forall_mem_append] at hexact
    obtain ⟨-, hleft, hright⟩ := hexact
    simp only [MergeTree.parts, flatten_append, rowsTotal_append] at hroot ⊢
    rw [gather, MergeTree.eval, ← gather, ← gather, ihl hleft, ihr hright]
    exact mergeSum_answer hspec (hleft _ (MergeTree.mem_subtrees_self _)) (hright _ (MergeTree.mem_subtrees_self _)) hroot

/-! ## Minimum and maximum -/

theorem classify_ofI64 : MinMaxOperand.classify (.ofI64 n) = some (.int n) := by
  rw [MinMaxOperand.classify, Json.asI64_ofI64]

theorem mergeExtremum_min : mergeExtremum .lt true (.ofI64 a) (.ofI64 b) = .ofI64 (combine .longMin a b) := by
  simp only [mergeExtremum, classify_ofI64, MinMaxOperand.cmpExact, Std.compare_eq_lt, combine, if_true]
  split <;> rfl

theorem mergeExtremum_max : mergeExtremum .gt true (.ofI64 a) (.ofI64 b) = .ofI64 (combine .longMax a b) := by
  simp only [mergeExtremum, classify_ofI64, MinMaxOperand.cmpExact, Std.compare_eq_gt, combine, if_true]
  split <;> rfl

/-- The value of an empty part is the last to be chosen. -/
theorem combine_init_min : combine .longMin longMin.init n = n ∧ combine .longMin n longMin.init = n := by
  simp only [← Int64.toInt_inj, toInt_combine_min]
  have : n.toInt ≤ longMin.init.toInt := n.toInt_le
  omega

theorem combine_init_max : combine .longMax longMax.init n = n ∧ combine .longMax n longMax.init = n := by
  simp only [← Int64.toInt_inj, toInt_combine_max]
  have : longMax.init.toInt ≤ n.toInt := n.minValue_le_toInt
  omega

/-- In the legacy mode the merged result is that of all rows. -/
theorem mergeExtremum_legacy {spec : IntegerSpec} (hspec : spec = .longMin ∨ spec = .longMax) (x y : Option Int64) :
    mergeJsonBySpec true spec (answer true spec x) (answer true spec y) = answer true spec (Option.merge (combine spec) x y) := by
  rcases hspec with rfl | rfl
  · cases x <;> cases y <;>
      simp only [mergeJsonBySpec, mergeMin, answer, if_true, mergeExtremum_min, combine_init_min, Option.merge_none_left,
        Option.merge_none_right, Option.merge_some_some]
  · cases x <;> cases y <;>
      simp only [mergeJsonBySpec, mergeMax, answer, if_true, mergeExtremum_max, combine_init_max, Option.merge_none_left,
        Option.merge_none_right, Option.merge_some_some]

theorem gather_legacy {spec : IntegerSpec} (hspec : spec = .longMin ∨ spec = .longMax) (tree : MergeTree (List (Option Json))) :
    gather true spec tree = answer true spec (rowsTotal spec tree.parts.flatten) := by
  refine tree.eval_induct (R := fun j parts => j = answer true spec (rowsTotal spec parts.flatten)) (fun part _ => ?_)
    fun x y ps qs hx hy => ?_
  · rw [run_eq, flatten_singleton]
  · rw [hx, hy, flatten_append, rowsTotal_append]
    exact mergeExtremum_legacy hspec _ _

/-- Two longs that are the same float. -/
def SameFloat (a b : Int64) : Prop := F64.ofInt a.toInt = F64.ofInt b.toInt

/-- Where a long is as a float, the wanted side first. -/
def place (spec : IntegerSpec) (n : Int64) : ℤ :=
  let rank := F64.signed (decide (n.toInt < 0)) (F64.roundBits (F64.unitsOne * n.toInt.natAbs))
  if spec = .longMax then -rank else rank

theorem sameFloat_iff (spec : IntegerSpec) {a b : Int64} : SameFloat a b ↔ place spec a = place spec b := by
  have hplace : place spec a = place spec b ↔ (F64.ofInt a.toInt).rank = (F64.ofInt b.toInt).rank := by
    rw [F64.rank_ofInt (natAbs_lt a), F64.rank_ofInt (natAbs_lt b), Option.some_inj]
    unfold place
    split_ifs
    · exact neg_inj
    · rfl
  rw [hplace]
  refine ⟨congrArg F64.rank, fun h => ?_⟩
  apply F64.ofInt_eq_of_not_lt (natAbs_lt a) (natAbs_lt b)
  · rw [F64.lt, h, F64.rank_ofInt (natAbs_lt b)]
    exact decide_eq_false (lt_irrefl _)
  · rw [F64.lt, h, F64.rank_ofInt (natAbs_lt b)]
    exact decide_eq_false (lt_irrefl _)

/-- Floats keep the order of longs, so they do not lose the extreme one's place. -/
theorem place_combine {spec : IntegerSpec} (hspec : spec = .longMin ∨ spec = .longMax) (a b : Int64) :
    place spec (combine spec a b) = min (place spec a) (place spec b) := by
  have hmono : ∀ a b : Int64, a.toInt ≤ b.toInt → place .longMin a ≤ place .longMin b ∧ place .longMax b ≤ place .longMax a :=
    fun a b h => ⟨F64.signed_roundBits_mono h, neg_le_neg (F64.signed_roundBits_mono h)⟩
  rcases hspec with rfl | rfl
  · simp only [combine, Int64.lt_iff_toInt_lt]
    split_ifs with h
    · exact (min_eq_right (hmono b a h.le).1).symm
    · exact (min_eq_left (hmono a b (not_lt.1 h)).1).symm
  · simp only [combine, Int64.lt_iff_toInt_lt]
    split_ifs with h
    · exact (min_eq_right (hmono a b h.le).2).symm
    · exact (min_eq_left (hmono b a (not_lt.1 h)).2).symm

theorem mergeExtremum_place {spec : IntegerSpec} (hspec : spec = .longMin ∨ spec = .longMax) (v w : Int64) :
    mergeJsonBySpec false spec (.ofI64 v) (.ofI64 w) = .ofI64 (if place spec w < place spec v then w else v) := by
  have hlt : ∀ a b : Int64, (F64.ofInt a.toInt).lt (.ofInt b.toInt) = true ↔ place .longMin a < place .longMin b := fun a b => by
    rw [F64.lt, F64.rank_ofInt (natAbs_lt a), F64.rank_ofInt (natAbs_lt b)]
    exact decide_eq_true_iff
  have hneg : ∀ n, place .longMax n = -place .longMin n := fun _ => rfl
  rcases hspec with rfl | rfl
  · simp only [mergeJsonBySpec, mergeMin, mergeExtremum, Json.asF64_ofI64, hlt, Bool.false_eq_true, if_false, if_true]
    split_ifs <;> rfl
  · simp only [mergeJsonBySpec, mergeMax, mergeExtremum, Json.asF64_ofI64, hlt, hneg, neg_lt_neg_iff, Bool.false_eq_true, if_false,
      reduceCtorEq]
    split_ifs <;> rfl

/-- A merge picks one of its arguments. -/
theorem mergeExtremum_eq_or {spec : IntegerSpec} (hspec : spec = .longMin ∨ spec = .longMax) (legacy : Bool) (x y : Json) :
    mergeJsonBySpec legacy spec x y = x ∨ mergeJsonBySpec legacy spec x y = y := by
  have hpick : ∀ wanted, mergeExtremum wanted legacy x y = x ∨ mergeExtremum wanted legacy x y = y := fun wanted => by
    unfold mergeExtremum
    split_ifs <;> split <;> (try split_ifs) <;> simp
  rcases hspec with rfl | rfl <;> exact hpick _

/-- So the merged result is the result of one part. -/
theorem gather_part {spec : IntegerSpec} (hspec : spec = .longMin ∨ spec = .longMax) (legacy : Bool) (tree : MergeTree (List (Option Json))) :
    ∃ part ∈ tree.parts, gather legacy spec tree = run legacy spec part := by
  refine tree.eval_induct (R := fun j parts => ∃ part ∈ parts, j = run legacy spec part)
    (fun part _ => ⟨part, mem_singleton_self _, rfl⟩) fun x y ps qs hx hy => ?_
  obtain ⟨part, hpart, hx⟩ := hx
  obtain ⟨part', hpart', hy⟩ := hy
  rcases mergeExtremum_eq_or hspec legacy x y with h | h
  · exact ⟨part, mem_append_left _ hpart, h.trans hx⟩
  · exact ⟨part', mem_append_right _ hpart', h.trans hy⟩

/-- The float merge picks the right one of its arguments, as a float. -/
theorem mergeExtremum_float {spec : IntegerSpec} (hspec : spec = .longMin ∨ spec = .longMax) {v w s t : Int64}
    (hv : SameFloat v s) (hw : SameFloat w t) :
    ∃ u, mergeJsonBySpec false spec (.ofI64 v) (.ofI64 w) = .ofI64 u ∧ SameFloat u (combine spec s t) := by
  rw [sameFloat_iff spec] at hv hw
  refine ⟨_, mergeExtremum_place hspec v w, ?_⟩
  rw [sameFloat_iff spec, place_combine hspec, ← hv, ← hw]
  split_ifs with h
  · exact (min_eq_right h.le).symm
  · exact (min_eq_left (not_lt.1 h)).symm

/-- Otherwise the merged result is as a float that of all rows. -/
theorem gather_float {spec : IntegerSpec} (hspec : spec = .longMin ∨ spec = .longMax) (tree : MergeTree (List (Option Json))) :
    (rowsTotal spec tree.parts.flatten = none ∧ gather false spec tree = .null) ∨
      ∃ v s, rowsTotal spec tree.parts.flatten = some s ∧ gather false spec tree = .ofI64 v ∧ SameFloat v s := by
  have hnone : answer false spec none = .null := by
    rcases hspec with rfl | rfl <;> rfl
  have hnull_left : ∀ j, mergeJsonBySpec false spec .null (Json.ofI64 j) = .ofI64 j := by
    rcases hspec with rfl | rfl <;> exact fun _ => rfl
  have hnull_right : ∀ j, mergeJsonBySpec false spec (Json.ofI64 j) .null = .ofI64 j := by
    rcases hspec with rfl | rfl <;> exact fun _ => rfl
  have hnull : mergeJsonBySpec false spec .null .null = .null := by
    rcases hspec with rfl | rfl <;> rfl
  refine tree.eval_induct (R := fun j parts => (rowsTotal spec parts.flatten = none ∧ j = Json.null) ∨
    ∃ v s, rowsTotal spec parts.flatten = some s ∧ j = Json.ofI64 v ∧ SameFloat v s)
    (fun part _ => ?_) fun x y ps qs hx hy => ?_
  · rw [flatten_singleton]
    have hrun := run_eq false spec part
    cases htotal : rowsTotal spec part with
    | none => exact .inl ⟨rfl, by rw [hrun, htotal, hnone]⟩
    | some s =>
      rw [htotal] at hrun
      exact .inr ⟨s, s, rfl, hrun, rfl⟩
  · rw [flatten_append, rowsTotal_append]
    rcases hx with ⟨hx, rfl⟩ | ⟨v, s, hs, rfl, hv⟩
    · rcases hy with ⟨hy, rfl⟩ | ⟨w, t, ht, rfl, hw⟩
      · exact .inl ⟨by rw [hx, hy]; rfl, hnull⟩
      · exact .inr ⟨w, t, by rw [hx, ht]; rfl, hnull_left w, hw⟩
    · rcases hy with ⟨hy, rfl⟩ | ⟨w, t, ht, rfl, hw⟩
      · exact .inr ⟨v, s, by rw [hs, hy]; rfl, hnull_right v, hv⟩
      · obtain ⟨u, hu, hsame⟩ := mergeExtremum_float hspec hv hw
        exact .inr ⟨u, combine spec s t, by rw [hs, ht]; rfl, hu, hsame⟩

/-! ## All results -/

/-- Parts without a value merge to null. -/
theorem gather_null {spec : IntegerSpec} (hspec : spec ≠ .count) (tree : MergeTree (List (Option Json)))
    (hnull : ∀ row ∈ tree.parts.flatten, row = none ∨ row = some .null) : gather false spec tree = .null := by
  have hmerge : mergeJsonBySpec false spec .null .null = .null := by
    cases spec <;> rfl
  refine tree.eval_induct (R := fun j parts => (∀ row ∈ parts.flatten, row = none ∨ row = some Json.null) → j = Json.null)
    (fun part _ hpart => ?_) (fun x y ps qs hx hy hparts => ?_) hnull
  · rw [flatten_singleton] at hpart
    have hnone : part.filterMap (extract spec) = [] := by
      rw [filterMap_eq_nil_iff]
      intro row hrow
      rcases hpart row hrow with rfl | rfl <;> cases spec <;> first | rfl | exact absurd rfl hspec
    rw [run_eq, rowsTotal, hnone]
    cases spec <;> first | rfl | exact absurd rfl hspec
  · rw [flatten_append, forall_mem_append] at hparts
    rw [hx hparts.1, hy hparts.2, hmerge]

/-- Counts and sums are those of all rows when no sum on the way is too large
for a float. A minimum or maximum is in the legacy mode that of all rows, and
otherwise the same float as it; it is the result of a part. -/
theorem gather_agrees (legacy : Bool) (spec : IntegerSpec) (tree : MergeTree (List (Option Json))) (rows : List (Option Json))
    (hrows : tree.parts.flatten.Perm rows) :
    ((spec = .count ∨ spec = .longSum) → (∀ t ∈ tree.subtrees, ∀ n, run legacy spec t.parts.flatten = .ofI64 n → Exact n) →
      gather legacy spec tree = run legacy spec rows) ∧
    ((spec = .longMin ∨ spec = .longMax) →
      (legacy = true → gather legacy spec tree = run legacy spec rows) ∧
      (∃ part ∈ tree.parts, gather legacy spec tree = run legacy spec part) ∧
      (gather legacy spec tree = run legacy spec rows ∨ ∃ v s, gather legacy spec tree = .ofI64 v ∧ run legacy spec rows = .ofI64 s ∧
        SameFloat v s) ∧
      ∀ s, run legacy spec rows = .ofI64 s → s.toInt.natAbs < 2 ^ 53 → gather legacy spec tree = .ofI64 s) ∧
    (spec ≠ .count → legacy = false → (∀ row ∈ rows, row = none ∨ row = some .null) → gather legacy spec tree = .null) := by
  rw [← run_perm legacy spec hrows, run_eq]
  refine ⟨fun hspec hexact => ?_, fun hspec => ?_, fun hspec hlegacy hnull => ?_⟩
  · refine gather_sum hspec tree fun t ht n hn => hexact t ht n ?_
    rw [run_eq, Option.mem_def.1 hn, answer]
  · cases legacy with
    | true =>
      have hgather := gather_legacy hspec tree
      exact ⟨fun _ => hgather, gather_part hspec true tree, .inl hgather, fun s hs _ => hgather.trans hs⟩
    | false =>
      refine ⟨nofun, gather_part hspec false tree, ?_⟩
      rcases gather_float hspec tree with ⟨htotal, hgather⟩ | ⟨v, s, htotal, hgather, hsame⟩
      · have hnone : answer false spec none = .null := by
          rcases hspec with rfl | rfl <;> rfl
        rw [htotal, hgather, hnone]
        exact ⟨.inl rfl, nofun⟩
      · rw [htotal, hgather, answer]
        refine ⟨.inr ⟨v, s, rfl, rfl, hsame⟩, fun s' hs' hsmall => ?_⟩
        obtain rfl := Json.ofI64_inj.1 hs'
        have heq : s.toInt = v.toInt := F64.eq_of_ofInt_eq hsmall (natAbs_lt v) hsame.symm
        rw [Int64.toInt_inj.1 heq]
  · subst hlegacy
    exact gather_null hspec tree fun row hrow => hnull row (hrows.mem_iff.1 hrow)

/-- Three segments, of which the last is empty. -/
def threeSegments : MergeTree (List (Option Json)) :=
  .node (.node (.leaf [some (.ofI64 5), none]) (.leaf [some .null, some (.ofI64 7)])) (.leaf [])

theorem gather_agrees_three :
    gather false .longSum threeSegments = run false .longSum [none, some (.ofI64 5), some (.ofI64 7), some .null] ∧
      gather true .longMin threeSegments = run true .longMin [none, some (.ofI64 5), some (.ofI64 7), some .null] ∧
      gather false .longMin threeSegments = .ofI64 5 ∧ gather false .longMax (.leaf [none, some .null]) = .null := by
  have hrows : threeSegments.parts.flatten.Perm [none, some (.ofI64 5), some (.ofI64 7), some .null] := by decide +kernel
  have hexact : ∀ t ∈ threeSegments.subtrees, ∀ n, run false .longSum t.parts.flatten = .ofI64 n → Exact n := by
    have hall : ∀ t ∈ threeSegments.subtrees, (run false .longSum t.parts.flatten).asI64.all (fun n => Exact n) = true := by
      decide +kernel
    intro t ht n hn
    have hexact := hall t ht
    rw [hn, Json.asI64_ofI64, Option.all_some] at hexact
    exact of_decide_eq_true hexact
  refine ⟨(gather_agrees false .longSum _ _ hrows).1 (.inr rfl) hexact, ((gather_agrees true .longMin _ _ hrows).2.1 (.inl rfl)).1 rfl,
    ((gather_agrees false .longMin _ _ hrows).2.1 (.inl rfl)).2.2.2 5 (by decide +kernel) (by decide +kernel), ?_⟩
  exact (gather_agrees false .longMax (.leaf [none, some .null]) [none, some .null] (by decide +kernel)).2.2 (by decide) rfl (by decide +kernel)

/-- A sum past 2 to the 53 is rounded, one past the range of a long saturates
where the aggregator wraps, and two longs that are one float leave the choice to
the order of the segments. -/
theorem gather_differs :
    gather false .longSum (.node (.leaf [some (.ofI64 9007199254740992)]) (.leaf [some (.ofI64 1)])) = .ofI64 9007199254740992 ∧
      run false .longSum [some (.ofI64 9007199254740992), some (.ofI64 1)] = .ofI64 9007199254740993 ∧
      gather false .longSum (.node (.leaf [some (.ofI64 Int64.maxValue)]) (.leaf [some (.ofI64 1)])) = .ofI64 Int64.maxValue ∧
      run false .longSum [some (.ofI64 Int64.maxValue), some (.ofI64 1)] = .ofI64 Int64.minValue ∧
      gather false .longMin (.node (.leaf [some (.ofI64 9007199254740993)]) (.leaf [some (.ofI64 9007199254740992)])) =
        .ofI64 9007199254740993 ∧
      run false .longMin [some (.ofI64 9007199254740993), some (.ofI64 9007199254740992)] = .ofI64 9007199254740992 := by
  decide +kernel

/-! ## Merging one after the other

The broker merges the result of each segment into those before it. -/

/-- Empty parts do not count. -/
theorem flatten_map_filter {ι β : Type} {items : List ι} {part : ι → List β} {p : ι → Bool}
    (hp : ∀ i ∈ items, p i = false → part i = []) :
    ((items.filter p).map part).flatten = (items.map part).flatten := by
  induction items with
  | nil => rfl
  | cons i items ih =>
    have ih := ih fun x hx => hp x (mem_cons_of_mem _ hx)
    cases hi : p i with
    | true => rw [filter_cons_of_pos hi, map_cons, flatten_cons, map_cons, flatten_cons, ih]
    | false =>
      have hnil := hp i (mem_cons_self ..) hi
      rw [filter_cons_of_neg (by simp [hi]), ih, map_cons, flatten_cons, hnil, nil_append]

/-- Counts and sums of the parts and of the parts up to each of them are held by a
float exactly; so is a minimum or maximum, outside the legacy mode. -/
def WithinFloat (legacy : Bool) (spec : IntegerSpec) (parts : List (List (Option Json))) : Prop :=
  if spec = .count ∨ spec = .longSum then
    (∀ part ∈ parts, ∀ n, run legacy spec part = .ofI64 n → Exact n) ∧
      ∀ pre, pre <+: parts → ∀ n, run legacy spec pre.flatten = .ofI64 n → Exact n
  else legacy = true ∨ ∀ n, run legacy spec parts.flatten = .ofI64 n → n.toInt.natAbs < 2 ^ 53

variable {legacy : Bool} {spec : IntegerSpec}

theorem gather_of_withinFloat {tree : MergeTree (List (Option Json))}
    (hsubtrees : ∀ t ∈ tree.subtrees, (∃ p ∈ tree.parts, t.parts = [p]) ∨ t.parts <+: tree.parts)
    (h : WithinFloat legacy spec tree.parts) : gather legacy spec tree = run legacy spec tree.parts.flatten := by
  obtain ⟨hsum, hextremum, -⟩ := gather_agrees legacy spec tree _ (.refl _)
  unfold WithinFloat at h
  split_ifs at h with hspec
  · refine hsum hspec fun t ht n hn => ?_
    rcases hsubtrees t ht with ⟨p, hp, hparts⟩ | hpre
    · rw [hparts, flatten_singleton] at hn
      exact h.1 p hp n hn
    · exact h.2 _ hpre n hn
  · have hminmax : spec = .longMin ∨ spec = .longMax := by
      cases spec <;> simp at hspec ⊢
    obtain ⟨hlegacy, -, hfloat, hsmall⟩ := hextremum hminmax
    rcases h with h | h
    · exact hlegacy h
    · rcases hfloat with heq | ⟨v, s, -, hrun, -⟩
      · exact heq
      · rw [hsmall s hrun (h s hrun), hrun]

theorem foldl_mergeJsonBySpec {part : List (Option Json)} {rest : List (List (Option Json))} (h : WithinFloat legacy spec (part :: rest)) :
    rest.foldl (fun v p => mergeJsonBySpec legacy spec v (run legacy spec p)) (run legacy spec part) = run legacy spec (part :: rest).flatten := by
  rw [← MergeTree.eval_chain, ← MergeTree.parts_chain part rest]
  refine gather_of_withinFloat (fun t ht => ?_) (by rwa [MergeTree.parts_chain])
  rw [MergeTree.parts_chain]
  exact MergeTree.mem_subtrees_chain ht

/-! ## When merging is exact -/

/-- What a sum answers with; without a value a count and a legacy sum are 0. -/
def sumTotal (legacy : Bool) (spec : IntegerSpec) (rows : List (Option Json)) : Option Int64 :=
  if spec = .count ∨ legacy = true then some ((rowsTotal spec rows).getD 0) else rowsTotal spec rows

/-- Totals of parts added one after the other come to the total of all rows. A
minimum or maximum comes before any other that is the same float; as integers it
is always found. -/
def MergesExactly (legacy : Bool) (spec : IntegerSpec) (parts : List (List (Option Json))) : Prop :=
  if spec = .count ∨ spec = .longSum then
    (parts.map (sumTotal legacy spec)).foldl (Option.merge addRounded) none = sumTotal legacy spec parts.flatten
  else
    let extremes := parts.filterMap (rowsTotal spec)
    legacy = true ∨ ∀ s ∈ rowsTotal spec parts.flatten, ∀ v ∈ extremes, SameFloat v s → extremes.idxOf s ≤ extremes.idxOf v

/-- The JSON of a value that may be missing. -/
def totalJson : Option Int64 → Json
  | some v => .ofI64 v
  | none => .null

theorem totalJson_inj {x y : Option Int64} : totalJson x = totalJson y ↔ x = y := by
  cases x <;> cases y <;> simp [totalJson, Json.ofI64, Int64.toInt_inj]

theorem mergeSum_totalJson (x y : Option Int64) : mergeSum (totalJson x) (totalJson y) = totalJson (Option.merge addRounded x y) := by
  cases x with
  | none => cases y <;> rfl
  | some v =>
    cases y with
    | none => rfl
    | some w => exact mergeSum_ofI64 v w

theorem run_sum (hspec : spec = .count ∨ spec = .longSum) (rows : List (Option Json)) :
    run legacy spec rows = totalJson (sumTotal legacy spec rows) := by
  rw [run_eq]
  unfold sumTotal
  rcases hspec with rfl | rfl <;> cases rowsTotal _ rows <;> cases legacy <;> rfl

theorem foldl_sum (hspec : spec = .count ∨ spec = .longSum) (part : List (Option Json)) (rest : List (List (Option Json))) :
    rest.foldl (fun v p => mergeJsonBySpec legacy spec v (run legacy spec p)) (run legacy spec part) =
      totalJson (((part :: rest).map (sumTotal legacy spec)).foldl (Option.merge addRounded) none) := by
  have hmerge : mergeJsonBySpec legacy spec = mergeSum := by rcases hspec with rfl | rfl <;> rfl
  rw [hmerge, map_cons, foldl_cons, Option.merge_none_left, foldl_map, run_sum hspec]
  refine foldl_hom totalJson fun x p => ?_
  rw [run_sum hspec, mergeSum_totalJson]

theorem run_extreme (hspec : spec = .longMin ∨ spec = .longMax) (rows : List (Option Json)) :
    run false spec rows = totalJson (rowsTotal spec rows) := by
  rw [run_eq]
  rcases hspec with rfl | rfl <;> cases rowsTotal _ rows <;> rfl

/-- The extremes of parts merge to the first of those that are foremost as floats. -/
theorem foldl_extreme (hspec : spec = .longMin ∨ spec = .longMax) (part : List (Option Json)) (rest : List (List (Option Json))) :
    rest.foldl (fun v p => mergeJsonBySpec false spec v (run false spec p)) (run false spec part) =
      totalJson (((part :: rest).filterMap (rowsTotal spec)).argmin (place spec)) := by
  have hnull : ∀ x, mergeJsonBySpec false spec (totalJson x) .null = totalJson x := by
    rcases hspec with rfl | rfl <;> intro x <;> cases x <;> rfl
  have hfirst : ∀ w, mergeJsonBySpec false spec .null (.ofI64 w) = .ofI64 w := by
    rcases hspec with rfl | rfl <;> exact fun _ => rfl
  induction rest using List.reverseRecOn with
  | nil =>
    rw [foldl_nil, run_extreme hspec]
    cases htotal : rowsTotal spec part with
    | none => rw [filterMap_cons_none htotal]; rfl
    | some v => rw [filterMap_cons_some htotal]; rfl
  | append_singleton rest last ih =>
    rw [foldl_append, foldl_cons, foldl_nil, ih, ← cons_append, filterMap_append, run_extreme hspec]
    cases htotal : rowsTotal spec last with
    | none => rw [filterMap_cons_none htotal, filterMap_nil, append_nil, totalJson, hnull]
    | some w =>
      rw [filterMap_cons_some htotal, filterMap_nil, argmin_concat]
      cases ((part :: rest).filterMap (rowsTotal spec)).argmin (place spec) with
      | none => exact hfirst w
      | some v =>
        rw [totalJson, totalJson, mergeExtremum_place hspec]
        dsimp only
        split_ifs <;> rfl

theorem rowsTotal_flatten (parts : List (List (Option Json))) :
    rowsTotal spec parts.flatten = total (combine spec) (parts.filterMap (rowsTotal spec)) := by
  induction parts with
  | nil => rfl
  | cons part parts ih =>
    rw [flatten_cons, rowsTotal_append, ih]
    cases htotal : rowsTotal spec part with
    | none => rw [filterMap_cons_none htotal, Option.merge_none_left]
    | some v =>
      rw [filterMap_cons_some htotal]
      exact (total_append [v] _).symm

theorem combine_eq_or (hspec : spec = .longMin ∨ spec = .longMax) (a b : Int64) : combine spec a b = a ∨ combine spec a b = b := by
  rcases hspec with rfl | rfl <;> simp only [combine] <;> split_ifs <;> simp

/-- A total of extremes is one of them, and as a float foremost. -/
theorem total_extreme (hspec : spec = .longMin ∨ spec = .longMax) {values : List Int64} {s : Int64} (h : total (combine spec) values = some s) :
    s ∈ values ∧ ∀ v ∈ values, place spec s ≤ place spec v := by
  induction values using List.reverseRecOn generalizing s with
  | nil => cases h
  | append_singleton values w ih =>
    rw [total_append] at h
    have hlast : total (combine spec) [w] = some w := rfl
    rw [hlast] at h
    cases hvalues : total (combine spec) values with
    | none =>
      rw [hvalues, Option.merge_none_left] at h
      obtain rfl := Option.some.inj h
      obtain rfl := total_eq_none_iff.1 hvalues
      simp
    | some t =>
      obtain ⟨hmem, hleast⟩ := ih hvalues
      rw [hvalues, Option.merge_some_some] at h
      obtain rfl := Option.some.inj h
      constructor
      · rcases combine_eq_or hspec t w with heq | heq <;> simp [heq, hmem]
      · rw [place_combine hspec]
        intro v hv
        rcases mem_append.1 hv with hv | hv
        · exact (min_le_left _ _).trans (hleast v hv)
        · obtain rfl := mem_singleton.1 hv
          exact min_le_right _ _

variable (part : List (Option Json))

/-- Merging gives the result of all rows exactly if the totals do. -/
theorem foldl_merge_iff (rest : List (List (Option Json))) :
    rest.foldl (fun v p => mergeJsonBySpec legacy spec v (run legacy spec p)) (run legacy spec part) = run legacy spec (part :: rest).flatten ↔
      MergesExactly legacy spec (part :: rest) := by
  unfold MergesExactly
  split_ifs with hsum
  · rw [foldl_sum hsum, run_sum hsum, totalJson_inj]
  have hspec : spec = .longMin ∨ spec = .longMax := by cases spec <;> simp at hsum ⊢
  cases legacy with
  | true =>
    have hgather := gather_legacy hspec (.chain part rest)
    rw [gather, MergeTree.eval_chain, MergeTree.parts_chain, ← run_eq] at hgather
    exact iff_of_true hgather (.inl rfl)
  | false =>
    rw [foldl_extreme hspec, run_extreme hspec, totalJson_inj, rowsTotal_flatten]
    generalize (part :: rest).filterMap (rowsTotal spec) = extremes
    cases htotal : total (combine spec) extremes with
    | none =>
      obtain rfl := total_eq_none_iff.1 htotal
      exact iff_of_true rfl (.inr nofun)
    | some s =>
      obtain ⟨hmem, hleast⟩ := total_extreme hspec htotal
      rw [argmin_eq_some_iff]
      have hsame : ∀ v ∈ extremes, place spec v ≤ place spec s ↔ SameFloat v s := fun v hv => by
        rw [sameFloat_iff spec]
        exact ⟨fun h => le_antisymm h (hleast v hv), le_of_eq⟩
      constructor
      · rintro ⟨-, -, hfirst⟩
        refine .inr fun s' hs' v hv hvs => ?_
        obtain rfl := Option.some.inj hs'
        exact hfirst v hv ((hsame v hv).2 hvs)
      · intro h
        exact ⟨hmem, hleast, fun v hv hvs => (h.resolve_left nofun) s rfl v hv ((hsame v hv).1 hvs)⟩

theorem mergesExactly_singleton : MergesExactly legacy spec [part] :=
  (foldl_merge_iff part []).1 (by rw [flatten_singleton]; rfl)

theorem WithinFloat.mergesExactly {part : List (Option Json)} {rest : List (List (Option Json))} (h : WithinFloat legacy spec (part :: rest)) :
    MergesExactly legacy spec (part :: rest) := (foldl_merge_iff part rest).1 (foldl_mergeJsonBySpec h)

/-- Parts without rows change nothing. -/
theorem WithinFloat.filter {ι : Type} {items : List ι} {part : ι → List (Option Json)} (h : WithinFloat legacy spec (items.map part))
    {p : ι → Bool} (hp : ∀ i ∈ items, p i = false → part i = []) : WithinFloat legacy spec ((items.filter p).map part) := by
  unfold WithinFloat at h ⊢
  split_ifs at h ⊢ with hspec
  · refine ⟨fun part' hpart' => ?_, fun pre hpre => ?_⟩
    · obtain ⟨i, hi, rfl⟩ := mem_map.1 hpart'
      exact h.1 _ (mem_map_of_mem (mem_of_mem_filter hi))
    · obtain ⟨rest, hrest⟩ := hpre
      obtain ⟨l, l', hsplit, rfl, -⟩ := map_eq_append_iff.1 hrest.symm
      obtain ⟨l, l', rfl, rfl, -⟩ := filter_eq_append_iff.1 hsplit
      rw [flatten_map_filter fun i hi => hp i (mem_append_left _ hi)]
      refine h.2 _ ?_
      rw [map_append]
      exact prefix_append _ _
  · rw [flatten_map_filter hp]
    exact h

theorem run_count (rows : List (Option Json)) : run legacy .count rows = .ofI64 (Int64.ofNat rows.length) := by
  have hfold : ∀ (rows : List (Option Json)) (a : CountAggregator),
      (rows.foldl CountAggregator.aggregate a).count = a.count + Int64.ofNat rows.length := fun rows => by
    induction rows with
    | nil => exact fun a => (Int64.add_zero _).symm
    | cons row rows ih =>
      intro a
      rw [foldl_cons, ih, CountAggregator.aggregate, length_cons, Int64.ofNat_add, Int64.add_assoc, Int64.add_comm 1]
      rfl
  rw [run, CountAggregator.get, hfold, CountAggregator.new, Int64.zero_add]

/-- A float holds the count of the rows of a segment, and of many. -/
theorem withinFloat_count {parts : List (List (Option Json))} (h : parts.flatten.length ≤ 2 ^ 53) : WithinFloat legacy .count parts := by
  have hexact : ∀ rows : List (Option Json), rows.length ≤ 2 ^ 53 → ∀ n, run legacy .count rows = .ofI64 n → Exact n := by
    intro rows hrows n hn
    rw [run_count, Json.ofI64_inj] at hn
    rw [← hn, Exact, Int64.toInt_ofNat_of_lt (by omega)]
    simpa using hrows
  refine ⟨fun part hpart => hexact part ?_, fun pre hpre => hexact _ ?_⟩
  · exact (sublist_flatten_of_mem hpart).length_le.trans h
  · obtain ⟨rest, rfl⟩ := hpre
    rw [flatten_append, length_append] at h
    omega

end FerroDruid.Aggregator
