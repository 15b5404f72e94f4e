import FerroDruid.Aggregator.FirstLast
import Mathlib.Data.List.MinMax
/-!
# Merging first and last values

An aggregator fed with timestamps holds the row of an extreme timestamp. A merge
sees the other one through its result, which has none, and keeps one side.
-/

namespace FerroDruid.Aggregator

open Lib List

variable {α : Type} (t : ValueType α)

/-! ## Rows with timestamps -/

/-- The rows whose value is of the type. -/
def ValueType.timed (rows : List (Int64 × Option Json)) : List (Int64 × α) :=
  rows.filterMap fun row => (row.2.bind t.extract).map (row.1, ·)

def ValueType.image (row : Option (Int64 × α)) : Json := (row.map fun row => t.toJson row.2).getD .null

namespace FirstLast

def feed (agg : FirstLast α) (rows : List (Int64 × Option Json)) : TimedValue α :=
  rows.foldl (fun a row => agg.aggregateWithTime a row.1 row.2) agg.new

def timedResult (agg : FirstLast α) (rows : List (Int64 × Option Json)) : Json := (agg.feed rows).get agg.type

/-- The result of an aggregator over some rows after it has merged one over others. -/
def merged (agg : FirstLast α) (a b : List (Int64 × Option Json)) : Json :=
  (agg.merge (agg.feed a) (agg.timedResult b)).get agg.type

end FirstLast

/-- The first of the rows with the least timestamp. -/
def earliest (rows : List (Int64 × α)) : Option (Int64 × α) :=
  @List.argmin _ ℤ Int.instLinearOrder.toPreorder _ (fun row => row.1.toInt) rows

/-- The last of the rows with the greatest timestamp. -/
def latest (rows : List (Int64 × α)) : Option (Int64 × α) :=
  @List.argmax _ ℤ Int.instLinearOrder.toPreorder _ (fun row => row.1.toInt) rows.reverse

/-! ## Feeding -/

variable (rows : List (Int64 × Option Json))

theorem ValueType.timed_concat (row : Int64 × Option Json) :
    t.timed (rows ++ [row]) = t.timed rows ++ ((row.2.bind t.extract).map (row.1, ·)).toList := by
  unfold timed
  rw [filterMap_append, filterMap_cons, filterMap_nil]
  cases row.2.bind t.extract <;> rfl

theorem earliest_concat (rows : List (Int64 × α)) (row : Int64 × α) :
    earliest (rows ++ [row]) =
      match earliest rows with
      | some best => if row.1 < best.1 then some row else some best
      | none => some row := by
  unfold earliest
  rw [argmin_concat]
  cases rows.argmin fun row => row.1.toInt with
  | none => rfl
  | some best => simp only [Int64.lt_iff_toInt_lt]

theorem latest_concat (rows : List (Int64 × α)) (row : Int64 × α) :
    latest (rows ++ [row]) =
      match latest rows with
      | some best => if best.1 ≤ row.1 then some row else some best
      | none => some row := by
  unfold latest
  rw [reverse_append, reverse_singleton, singleton_append, argmax_cons]
  cases rows.reverse.argmax fun row => row.1.toInt with
  | none => rfl
  | some best =>
    simp only [Int64.le_iff_toInt_le]
    split_ifs <;> first | rfl | omega

/-- The state that holds a row. -/
def TimedValue.of (new : TimedValue α) : Option (Int64 × α) → TimedValue α
  | some row => ⟨row.1, some row.2⟩
  | none => new

/-- The greatest timestamp of all stands for no row. -/
theorem First.feed_eq (hbelow : ∀ row ∈ t.timed rows, row.1 < Int64.maxValue) :
    rows.foldl (fun a row => First.aggregateWithTime t a row.1 row.2) First.new = TimedValue.of First.new (earliest (t.timed rows)) := by
  induction rows using List.reverseRecOn with
  | nil => rfl
  | append_singleton rows row ih =>
    rw [t.timed_concat, forall_mem_append] at hbelow
    rw [foldl_append, foldl_cons, foldl_nil, ih hbelow.1, t.timed_concat, First.aggregateWithTime]
    cases hvalue : row.2.bind t.extract with
    | none => simp
    | some v =>
      have hmax : row.1 < Int64.maxValue := hbelow.2 (row.1, v) (by rw [hvalue]; exact mem_singleton_self _)
      rw [Option.map_some, Option.toList_some, earliest_concat]
      cases earliest (t.timed rows) with
      | none => simp [TimedValue.of, First.new, hmax]
      | some best => by_cases h : row.1 < best.1 <;> simp [TimedValue.of, h]

theorem Last.feed_eq :
    rows.foldl (fun a row => Last.aggregateWithTime t a row.1 row.2) Last.new = TimedValue.of Last.new (latest (t.timed rows)) := by
  induction rows using List.reverseRecOn with
  | nil => rfl
  | append_singleton rows row ih =>
    rw [foldl_append, foldl_cons, foldl_nil, ih, t.timed_concat, Last.aggregateWithTime]
    cases row.2.bind t.extract with
    | none => simp
    | some v =>
      rw [Option.map_some, Option.toList_some, latest_concat]
      cases latest (t.timed rows) with
      | none => exact if_pos (minValue_le row.1)
      | some best => by_cases h : best.1 ≤ row.1 <;> simp [TimedValue.of, h]

/-! ## One side after the other -/

/-- The winner of two rows, where `beats x y` lets the second win. -/
def choose (beats : Int64 → Int64 → Bool) : Option (Int64 × α) → Option (Int64 × α) → Option (Int64 × α)
  | some x, some y => if beats x.1 y.1 then some y else some x
  | some x, none => some x
  | none, best => best

theorem earliest_append (xs ys : List (Int64 × α)) :
    earliest (xs ++ ys) = choose (fun x y => decide (y < x)) (earliest xs) (earliest ys) := by
  induction ys using List.reverseRecOn with
  | nil =>
    rw [append_nil]
    cases earliest xs <;> rfl
  | append_singleton ys row ih =>
    rw [← append_assoc, earliest_concat, ih, earliest_concat]
    cases earliest xs with
    | none => rfl
    | some x =>
      cases earliest ys with
      | none => simp [choose]
      | some y =>
        -- the least of three timestamps
        simp only [choose, decide_eq_true_eq, Int64.lt_iff_toInt_lt]
        by_cases hrow : row.1.toInt < y.1.toInt <;> by_cases hxy : y.1.toInt < x.1.toInt <;> simp only [hrow, hxy, ↓reduceIte]
        · exact (if_pos (hrow.trans hxy)).symm
        · exact if_neg (by omega)

theorem latest_append (xs ys : List (Int64 × α)) :
    latest (xs ++ ys) = choose (fun x y => decide (x ≤ y)) (latest xs) (latest ys) := by
  induction ys using List.reverseRecOn with
  | nil =>
    rw [append_nil]
    cases latest xs <;> rfl
  | append_singleton ys row ih =>
    rw [← append_assoc, latest_concat, ih, latest_concat]
    cases latest xs with
    | none => rfl
    | some x =>
      cases latest ys with
      | none => simp [choose]
      | some y =>
        -- the greatest of three timestamps
        simp only [choose, decide_eq_true_eq, Int64.le_iff_toInt_le]
        by_cases hrow : y.1.toInt ≤ row.1.toInt <;> by_cases hxy : x.1.toInt ≤ y.1.toInt <;> simp only [hrow, hxy, ↓reduceIte]
        · exact (if_pos (hxy.trans hrow)).symm
        · exact if_neg (by omega)

/-! ## Merging -/

theorem ValueType.image_of (new : TimedValue α) (hnew : new.value = none) (row : Option (Int64 × α)) : (new.of row).get t = t.image row := by
  cases row with
  | none => simp [TimedValue.of, TimedValue.get, hnew, image]
  | some row => rfl

/-- A row that was taken from JSON. -/
def ValueType.Taken (row : Option (Int64 × α)) : Prop := ∀ best ∈ row, ∃ j, t.extract j = some best.2

variable {row : Option (Int64 × α)}

theorem ValueType.taken_of_mem {rows : List (Int64 × Option Json)} (h : ∀ best ∈ row, best ∈ t.timed rows) :
    t.Taken row := by
  intro best hbest
  obtain ⟨source, -, hsource⟩ := mem_filterMap.1 (h best hbest)
  obtain ⟨v, hv, rfl⟩ := Option.map_eq_some_iff.1 hsource
  obtain ⟨j, -, hj⟩ := Option.bind_eq_some_iff.1 hv
  exact ⟨j, hj⟩

theorem ValueType.taken_earliest : t.Taken (earliest (t.timed rows)) :=
  t.taken_of_mem fun _ h => argmin_mem h

theorem ValueType.taken_latest : t.Taken (latest (t.timed rows)) :=
  t.taken_of_mem fun _ h => mem_reverse.1 (argmax_mem h)

/-- A result that is not null is read back as the value. -/
theorem ValueType.Taken.extract_image {t : ValueType α} (h : t.Taken row) :
    t.image row = .null ∨ ∃ best ∈ row, t.extract (t.image row) = some best.2 := by
  cases row with
  | none => exact .inl rfl
  | some best =>
    obtain ⟨j, hj⟩ := h best rfl
    exact (t.extract_toJson j best.2 hj).imp_right fun hback => ⟨best, rfl, hback⟩

theorem First.get_merge {other : Option (Int64 × α)} (h : t.Taken other) :
    (First.merge t (First.new.of row) (t.image other)).get t = t.image (row.or other) := by
  unfold First.merge
  cases row with
  | some best => simp [TimedValue.of, TimedValue.get, ValueType.image]
  | none =>
    rcases h.extract_image with hnull | ⟨best, hbest, hback⟩
    · simp [hnull, TimedValue.of, TimedValue.get, First.new]
    · cases hbest
      simp only [hback, TimedValue.of, First.new, TimedValue.get, Option.none_or]
      split_ifs with hnull
      · exact hnull.symm
      · rfl
      · simp_all

theorem Last.get_merge {other : Option (Int64 × α)} (h : t.Taken other) :
    (Last.merge t (Last.new.of row) (t.image other)).get t = if t.image other = .null then t.image row else t.image other := by
  unfold Last.merge
  split_ifs with hnull
  · exact t.image_of Last.new rfl row
  · rcases h.extract_image with hother | ⟨best, hbest, hback⟩
    · exact absurd hother hnull
    · cases hbest
      simp only [hback, TimedValue.get]
      rfl

/-- A merged string is read as any value. -/
theorem StringFirst.merge_eq (maxBytes : ℕ) : StringFirst.merge (.string maxBytes) = First.merge (.string maxBytes) := by
  funext a other
  unfold StringFirst.merge First.merge
  cases other <;> cases a.value <;> rfl

theorem StringLast.merge_eq (maxBytes : ℕ) : StringLast.merge (.string maxBytes) = Last.merge (.string maxBytes) := by
  funext a other
  cases other <;> rfl

namespace FirstLastSpec

/-- The purpose: the row of the extreme timestamp. -/
def extreme (s : FirstLastSpec) (rows : List (Int64 × Option Json)) : Option (Int64 × s.Value) :=
  if s.isFirst then earliest (s.createAggregator.type.timed rows) else latest (s.createAggregator.type.timed rows)

def image (s : FirstLastSpec) (row : Option (Int64 × s.Value)) : Json := s.createAggregator.type.image row

/-- The side a merge keeps: the existing value of a first aggregator, the new value
of a last one. -/
def kept (s : FirstLastSpec) (row other : Option (Int64 × s.Value)) : Json :=
  if s.isFirst then s.image (row.or other)
  else if s.image other = .null then s.image row else s.image other

/-- The kept value looks like the one of the extreme timestamp. -/
def Undisturbed (s : FirstLastSpec) (row other : Option (Int64 × s.Value)) : Prop :=
  ∀ x ∈ row, ∀ y ∈ other,
    if s.isFirst then y.1 < x.1 → s.image y = s.image x
    else if s.image y = .null then x.1 ≤ y.1 → s.image x = .null
    else y.1 < x.1 → s.image x = s.image y

/-- No row of a first aggregator has the timestamp that stands for none. -/
def Below (s : FirstLastSpec) (rows : List (Int64 × Option Json)) : Prop :=
  s.isFirst = true → ∀ row ∈ s.createAggregator.type.timed rows, row.1 < Int64.maxValue

variable (s : FirstLastSpec) (a b : List (Int64 × Option Json))

theorem timed_append :
    s.createAggregator.type.timed (a ++ b) = s.createAggregator.type.timed a ++ s.createAggregator.type.timed b := filterMap_append

theorem Below.parts {s : FirstLastSpec} {a b : List (Int64 × Option Json)} (h : s.Below (a ++ b)) : s.Below a ∧ s.Below b := by
  unfold Below at h
  rw [timed_append] at h
  exact ⟨fun hfirst => (forall_mem_append.1 (h hfirst)).1, fun hfirst => (forall_mem_append.1 (h hfirst)).2⟩

theorem timedResult_eq (rows : List (Int64 × Option Json)) (hbelow : s.Below rows) :
    s.createAggregator.timedResult rows = s.image (s.extreme rows) := by
  cases s with
  | longFirst | doubleFirst | floatFirst | stringFirst _ =>
    exact (congrArg _ (First.feed_eq _ rows (hbelow rfl))).trans (ValueType.image_of _ _ rfl _)
  | longLast | doubleLast | floatLast | stringLast _ => exact (congrArg _ (Last.feed_eq _ rows)).trans (ValueType.image_of _ _ rfl _)

theorem merged_eq (hbelow : s.Below (a ++ b)) :
    s.createAggregator.merged a b = s.kept (s.extreme a) (s.extreme b) := by
  obtain ⟨ha, hb⟩ := hbelow.parts
  unfold FirstLast.merged
  rw [timedResult_eq s b hb]
  cases s with
  | longFirst | doubleFirst | floatFirst =>
    exact (congrArg (fun state => (First.merge _ state _).get _) (First.feed_eq _ a (ha rfl))).trans (First.get_merge _ (ValueType.taken_earliest _ b))
  | stringFirst maxStringBytes =>
    have h := @First.get_merge _ (.string (maxStringBytes.getD 1024))
      (earliest (ValueType.timed (.string (maxStringBytes.getD 1024)) a)) _ (ValueType.taken_earliest _ b)
    rw [← First.feed_eq (.string (maxStringBytes.getD 1024)) a (ha rfl), ← StringFirst.merge_eq] at h
    exact h
  | longLast | doubleLast | floatLast =>
    exact (congrArg (fun state => (Last.merge _ state _).get _) (Last.feed_eq _ a)).trans (Last.get_merge _ (ValueType.taken_latest _ b))
  | stringLast maxStringBytes =>
    have h := @Last.get_merge _ (.string (maxStringBytes.getD 1024))
      (latest (ValueType.timed (.string (maxStringBytes.getD 1024)) a)) _ (ValueType.taken_latest _ b)
    rw [← Last.feed_eq, ← StringLast.merge_eq] at h
    exact h

/-- Whether a later row of the second timestamp wins over one of the first. -/
def supersedes (s : FirstLastSpec) (x y : Int64) : Bool := if s.isFirst then decide (y < x) else decide (x ≤ y)

/-- Ties go to the first side of a first aggregator and to the second of a last one. -/
theorem extreme_append : s.extreme (a ++ b) = choose s.supersedes (s.extreme a) (s.extreme b) := by
  unfold extreme supersedes
  rw [timed_append]
  cases s.isFirst with
  | true => exact earliest_append _ _
  | false => exact latest_append _ _

theorem kept_eq_iff :
    s.kept (s.extreme a) (s.extreme b) = s.image (s.extreme (a ++ b)) ↔ s.Undisturbed (s.extreme a) (s.extreme b) := by
  rw [extreme_append]
  have hnone : s.image none = .null := rfl
  unfold kept Undisturbed supersedes choose
  cases s.extreme a with
  | none =>
    cases s.extreme b with
    | none => simp [hnone]
    | some y => cases s.isFirst <;> simp_all
  | some x =>
    cases s.extreme b with
    | none => simp [hnone]
    | some y =>
      cases s.isFirst with
      | true =>
        by_cases hlt : y.1 < x.1
        · simp [hlt, eq_comm]
        · simp [hlt]
      | false =>
        by_cases hnull : s.image (some y) = .null <;> by_cases hle : x.1 ≤ y.1
        · simp [hnull, hle]
        · simp [hnull, hle]
        · have hnot : ¬y.1 < x.1 := Int64.not_lt.2 hle
          simp [hnull, hle, hnot]
        · have hlt : y.1 < x.1 := Int64.not_le.1 hle
          simp [hnull, hlt, hle, eq_comm (a := s.image (some y))]

end FirstLastSpec

end FerroDruid.Aggregator
