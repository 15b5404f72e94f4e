import FerroDruid.Query.TimeseriesResult
/-!
# Pruned row ranges

`pruned_row_range` of `ferrodruid-query/src/helpers.rs`: over times in order, the rows of
one interval are a range.
-/

namespace FerroDruid.Query.TimeseriesQuery

/-- The rows that a scan looks at: those of the pruned range, or all. -/
def scannedRows (timestamps : List Int64) (intervals : List (Int64 × Int64)) (timeSorted : Bool) : List ℕ :=
  match prunedRowRange timestamps intervals timeSorted with
  | some (lo, hi) => List.range' lo (hi - lo)
  | none => List.range timestamps.length

/-- The check that is made for each row. -/
def inIntervalsAt (timestamps : List Int64) (intervals : List (Int64 × Int64)) (row : ℕ) : Bool :=
  timestamps[row]?.any (inIntervals intervals)

variable {timestamps : List Int64}

/-- The range of an interval: neither a row before its start nor one from its end on. -/
theorem mem_range_iff (hsorted : timestamps.Pairwise (· ≤ ·)) (start stop : Int64) (row : ℕ) :
    (partitionPoint timestamps start ≤ row ∧ row < partitionPoint timestamps stop) ↔ ∃ t, timestamps[row]? = some t ∧ start ≤ t ∧ t < stop := by
  cases ht : timestamps[row]? with
  | none =>
    have hle : partitionPoint timestamps stop ≤ timestamps.length := (List.takeWhile_sublist _).length_le
    have hrow : timestamps.length ≤ row := List.getElem?_eq_none_iff.1 ht
    constructor
    · intro h
      omega
    · rintro ⟨t, h, -⟩
      cases h
  | some t =>
    have hstart := lt_partitionPoint_iff (t := start) hsorted ht
    have hstop := lt_partitionPoint_iff (t := stop) hsorted ht
    rw [← not_lt, hstart, hstop, Int64.not_lt]
    constructor
    · intro h
      exact ⟨t, rfl, h⟩
    · rintro ⟨t', hsame, h⟩
      cases hsame
      exact h

/-- Pruning drops no row that the check accepts, and over one interval is the check. -/
theorem pruned_rows_exact (hsorted : timestamps.Pairwise (· ≤ ·)) :
    (∀ (intervals : List (Int64 × Int64)) (timeSorted : Bool),
      (scannedRows timestamps intervals timeSorted).filter (inIntervalsAt timestamps intervals) =
        (List.range timestamps.length).filter (inIntervalsAt timestamps intervals)) ∧
    ∀ start stop : Int64, ∃ lo hi, prunedRowRange timestamps [(start, stop)] true = some (lo, hi) ∧
      ∀ row, (lo ≤ row ∧ row < hi) ↔ ∃ t, timestamps[row]? = some t ∧ start ≤ t ∧ t < stop := by
  refine ⟨fun intervals timeSorted => ?_, fun start stop => ⟨_, _, rfl, mem_range_iff hsorted start stop⟩⟩
  unfold scannedRows
  cases hpruned : prunedRowRange timestamps intervals timeSorted with
  | none => rfl
  | some range =>
    obtain ⟨start, stop, rfl, rfl⟩ : ∃ start stop, intervals = [(start, stop)] ∧
        range = (partitionPoint timestamps start, partitionPoint timestamps stop) := by
      unfold prunedRowRange at hpruned
      split at hpruned
      · rename_i start stop
        split_ifs at hpruned
        exact ⟨start, stop, rfl, (Option.some.inj hpruned).symm⟩
      · exact absurd hpruned nofun
    apply filter_range'_eq
    intro row
    have hrange := mem_range_iff hsorted start stop row
    have hcheck : inIntervalsAt timestamps [(start, stop)] row = true ↔ ∃ t, timestamps[row]? = some t ∧ start ≤ t ∧ t < stop := by
      simp [inIntervalsAt, inIntervals, Option.any_eq_true]
    rw [← and_assoc, hrange, hcheck]
    constructor
    · rintro ⟨⟨t, ht, hin⟩, -⟩
      exact ⟨(List.getElem?_eq_some_iff.1 ht).1, t, ht, hin⟩
    · rintro ⟨-, h⟩
      exact ⟨h, h⟩

theorem pruned_rows_exact_ties : scannedRows [-5, 3, 3, 7] [(3, 7)] true = [1, 2] ∧
    (scannedRows [-5, 3, 3, 7] [(7, 3)] true).filter (inIntervalsAt [-5, 3, 3, 7] [(7, 3)]) =
      (List.range 4).filter (inIntervalsAt [-5, 3, 3, 7] [(7, 3)]) :=
  ⟨by decide, (pruned_rows_exact (by decide)).1 [(7, 3)] true⟩

end FerroDruid.Query.TimeseriesQuery
