import FerroDruid.Lib.JsonNumber
import FerroDruid.Query.TopN
/-!
# Window functions

`apply_window` of `ferrodruid-query/src/window.rs`: rows are bucketed by the texts
of their partition keys, each bucket is sorted, and a loop over its rows writes
the value of each into the output column, in place.

SUM, AVG and NTILE are left out. A computation that panics has no result; whether
an overflow panics is a setting of the build.
-/

namespace FerroDruid.Query

open Lib List

/-! ## Specs -/

inductive SortDirection where
  | ascending
  | descending
  deriving DecidableEq

structure WindowOrderBy where
  column : String
  direction : SortDirection

inductive WindowFunctionKind where
  | rowNumber
  | rank
  | denseRank
  | lag (column : String) (offset : UInt64)
  | lead (column : String) (offset : UInt64)
  | min (column : String)
  | max (column : String)
  | count (column : Option String)
  | firstValue (column : String)
  | lastValue (column : String)
  | nthValue (column : String) (n : UInt64)
  | cumeDist
  | percentRank

inductive WindowFrameBound where
  | unboundedPreceding
  | preceding (n : UInt64)
  | currentRow
  | following (n : UInt64)
  | unboundedFollowing
  deriving DecidableEq

/-- A range frame is taken for one of rows. -/
structure WindowFrame where
  start : WindowFrameBound
  stop : WindowFrameBound

structure WindowSpec where
  outputName : String
  function : WindowFunctionKind
  partitionBy : List String
  orderBy : List WindowOrderBy
  frame : Option WindowFrame

/-! ## Rows -/

abbrev Rows := List JsonMap

namespace Rows

/-- `rows[row_idx].get(column)` -/
def get (rows : Rows) (rowIdx : ℕ) (column : String) : Option Json := (rows[rowIdx]?).bind fun row => row column

/-- A missing cell is null. -/
def cell (rows : Rows) (rowIdx : ℕ) (column : String) : Json := (rows.get rowIdx column).getD .null

def insert (rows : Rows) (rowIdx : ℕ) (name : String) (value : Json) : Rows := rows.modify rowIdx fun row => JsonMap.insert row name value

@[simp] theorem length_insert (rows : Rows) (rowIdx : ℕ) (name : String) (value : Json) : (rows.insert rowIdx name value).length = rows.length :=
  length_modify ..

theorem get_insert {rows : Rows} {rowIdx : ℕ} (h : rowIdx < rows.length) (name : String) (value : Json) (idx : ℕ) (column : String) :
    (rows.insert rowIdx name value).get idx column = if idx = rowIdx ∧ column = name then some value else rows.get idx column := by
  unfold get insert
  by_cases hidx : idx = rowIdx
  · subst hidx
    rw [getElem?_modify, getElem?_eq_getElem h]
    by_cases hcolumn : column = name
    · simp [hcolumn]
    · simp [hcolumn, JsonMap.insert_of_ne _ _ hcolumn]
  · rw [getElem?_modify, if_neg (by simp [hidx])]
    cases rows[idx]? with
    | none => rfl
    | some row => simp [Ne.symm hidx]

end Rows

/-! ## Keys -/

/-- The text of a key. Texts with different tags differ, and a float's text is
its own. -/
inductive KeyText where
  | null
  | int (i : Int64)
  | float (x : F64)
  | string (s : Utf8)
  | bool (b : Bool)
  | other (value : Json)
  deriving DecidableEq

def stringify : Option Json → KeyText
  | none | some .null => .null
  | some (.number n) =>
    match (Json.number n).asI64 with
    | some i => .int i
    | none => .float n.toFloat
  | some (.string s) => .string s
  | some (.bool b) => .bool b
  | some other => .other other

def partitionKey (spec : WindowSpec) (rows : Rows) (rowIdx : ℕ) : List KeyText := spec.partitionBy.map fun c => stringify (rows.get rowIdx c)

def orderKey (spec : WindowSpec) (rows : Rows) (rowIdx : ℕ) : List KeyText := spec.orderBy.map fun o => stringify (rows.get rowIdx o.column)

section

/-! The JSON text of a value is a parameter. -/

variable (text : Json → Bytes)

/-- Nulls come last. -/
def compareJson (a b : Option Json) : Ordering :=
  match a.getD .null, b.getD .null with
  | .null, .null => .eq
  | .null, _ => .gt
  | _, .null => .lt
  | a, b =>
    match numericAggCell a, numericAggCell b with
    | some af, some bf => partialCmp af bf
    | _, _ =>
      match a, b with
      | .string a, .string b => compareText a.bytes b.bytes
      | .bool a, .bool b => compare a b
      | a, b => compareText (text a) (text b)

def compareRows (orderBy : List WindowOrderBy) (rows : Rows) (a b : ℕ) : Ordering :=
  compareBy (compareJson text) (fun column rowIdx => rows.get rowIdx column) (orderBy.map fun o => (o.column, decide (o.direction = .ascending))) a b

end

/-! ## Frames -/

def usizeMax : ℕ := 2 ^ 64 - 1

def saturatingAdd (a b : ℕ) : ℕ := min (a + b) usizeMax

/-- The half-open window of the row at position `i` of `n`. -/
def frameBounds (frame : Option WindowFrame) (i n : ℕ) : ℕ × ℕ :=
  match frame with
  | none => (0, n)
  | some frame =>
    let start :=
      match frame.start with
      | .unboundedPreceding => 0
      | .preceding k => i - k.toNat
      | .currentRow => i
      | .following k => min (saturatingAdd i k.toNat) n
      | .unboundedFollowing => n
    let endExclusive :=
      match frame.stop with
      | .unboundedPreceding => 0
      | .preceding k => min (saturatingAdd (i - k.toNat) 1) n
      | .currentRow => min (i + 1) n
      | .following k => min (saturatingAdd (saturatingAdd i k.toNat) 1) n
      | .unboundedFollowing => n
    (start, endExclusive)

/-! ## Reductions -/

def jsonInt (n : Int64) : Json := .ofI64 n

def jsonFloat (x : F64) : Json := .ofF64 x

def isNull : Json → Bool
  | .null => true
  | _ => false

/-- One cell of `MIN` or `MAX`: the best so far, which an earlier one is if it is
no worse, and whether all cells were integers of 64 bits. -/
def reduceStep (noWorse : F64 → F64 → Bool) (acc : Option F64 × Bool) (v : Json) : Option F64 × Bool :=
  if isNull v then acc
  else
    let best :=
      match v.asF64, acc.1 with
      | none, best => best
      | some n, some b => some (if noWorse b n then b else n)
      | some n, none => some n
    (best, acc.2 && v.isI64)

/-- An integer when all cells are, which the best of them is as a float. -/
def reduceBest (noWorse : F64 → F64 → Bool) (cells : List Json) : Json :=
  match cells.foldl (reduceStep noWorse) (none, true) with
  | (none, _) => .null
  | (some n, allInt) => if allInt ∧ n.trunc = n then jsonInt n.toI64 else jsonFloat n

def reduceMin (rows : Rows) (frame : List ℕ) (column : String) : Json := reduceBest F64.le (frame.map fun idx => rows.cell idx column)

def reduceMax (rows : Rows) (frame : List ℕ) (column : String) : Json :=
  reduceBest (fun b n => F64.le n b) (frame.map fun idx => rows.cell idx column)

def reduceCount (rows : Rows) (frame : List ℕ) : Option String → Json
  | none => jsonInt (Int64.ofNat frame.length)
  | some c => jsonInt (Int64.ofNat (frame.countP fun idx => !isNull (rows.cell idx c)))

/-! ## Partitions -/

section

/-! Whether overflows panic is a parameter. -/

variable (overflowChecks : Bool)

/-- `a - b` and `a + b` of `usize`. -/
def usizeSub (a b : ℕ) : Option ℕ := if b ≤ a then some (a - b) else if overflowChecks then none else some (a + 2 ^ 64 - b)

def usizeAdd (a b : ℕ) : Option ℕ := if a + b < 2 ^ 64 then some (a + b) else if overflowChecks then none else some (a + b - 2 ^ 64)

/-- The loop over the rows of a partition: what a row gets may depend on what the
rows before it got. -/
def eachRow (name : String) (value : ℕ → Rows → Option Json) (indices : List ℕ) (rows : Rows) : Option Rows :=
  indices.zipIdx.foldlM (fun rows row => (value row.2 rows).map fun v => rows.insert row.1 name v) rows

/-- The cell at a position of the partition. -/
def cellAt (rows : Rows) (indices : List ℕ) (position : ℕ) (column : String) : Json :=
    ((indices[position]?).map fun idx => rows.cell idx column).getD .null

def applyAggregateFrame (spec : WindowSpec) (reduce : Rows → List ℕ → Json) (indices : List ℕ) (rows : Rows) : Option Rows :=
  match spec.frame with
  | none => eachRow spec.outputName (fun _ _ => some (reduce rows indices)) indices rows
  | some frame =>
    eachRow spec.outputName (fun i rows =>
      let (start, stop) := frameBounds (some frame) i indices.length
      some (reduce rows (if start < stop then (indices.drop start).take (stop - start) else []))) indices rows

/-- The running number of a tie scan: the key of the last row, and what the row
after it gets. -/
structure TieScan where
  lastKey : Option (List KeyText)
  current : ℕ

/-- A row with the key of the last one keeps its number. -/
def TieScan.next (scan : TieScan) (key : List KeyText) (fresh : ℕ) : TieScan :=
  if scan.lastKey = some key then scan else { lastKey := some key, current := fresh }

/-- The loop of the ranks. -/
def eachTie (spec : WindowSpec) (fresh : ℕ → ℕ → ℕ) (value : ℕ → Json) (indices : List ℕ) (rows : Rows) : Rows :=
  (indices.zipIdx.foldl (fun (acc : Rows × TieScan) row =>
    let scan := acc.2.next (orderKey spec acc.1 row.1) (fresh row.2 acc.2.current)
    (acc.1.insert row.1 spec.outputName (value scan.current), scan)) (rows, { lastKey := none, current := 0 })).1

/-- `a as f64 / b as f64` -/
def quotient (a b : ℕ) : Json :=
  match F64.ofInt a, F64.ofInt b with
  | .finite _ m, .finite _ n =>
    let bits := F64.roundRatio (F64.units m * F64.unitsOne) (F64.units n)
    if h : bits < 2047 * 2 ^ 52 then jsonFloat (.finite false ⟨bits, h⟩) else .null
  | _, _ => .null

/-- One tie group after the other, of which `done` rows are behind. -/
def eachGroup (spec : WindowSpec) (total : ℕ) (rows : Rows) (done : ℕ) : List ℕ → Rows
  | [] => rows
  | idx :: rest =>
    let key := orderKey spec rows idx
    let group := idx :: rest.takeWhile fun next => orderKey spec rows next = key
    let rows' := group.foldl (fun acc rowIdx => acc.insert rowIdx spec.outputName (quotient (done + group.length) total)) rows
    eachGroup spec total rows' (done + group.length) (rest.dropWhile fun next => orderKey spec rows next = key)
  termination_by indices => indices.length
  decreasing_by
    have := List.length_dropWhile_le (fun next => decide (orderKey spec rows next = orderKey spec rows idx)) rest
    simp only [List.length_cons]
    omega

def computePartition (spec : WindowSpec) (indices : List ℕ) (rows : Rows) : Option Rows :=
  let n := indices.length
  match spec.function with
  | .rowNumber => eachRow spec.outputName (fun i _ => some (jsonInt (Int64.ofNat (i + 1)))) indices rows
  | .rank => some (eachTie spec (fun i _ => i + 1) (fun rank => jsonInt (Int64.ofNat rank)) indices rows)
  | .denseRank => some (eachTie spec (fun _ current => current + 1) (fun rank => jsonInt (Int64.ofNat rank)) indices rows)
  | .lag column offset =>
    eachRow spec.outputName (fun i rows =>
      some (if offset.toNat ≤ i then cellAt rows indices (i - offset.toNat) column else .null)) indices rows
  | .lead column offset =>
    eachRow spec.outputName (fun i rows =>
      (usizeAdd overflowChecks i offset.toNat).map fun target => if target < n then cellAt rows indices target column else .null) indices rows
  | .min column => applyAggregateFrame spec (fun rows frame => reduceMin rows frame column) indices rows
  | .max column => applyAggregateFrame spec (fun rows frame => reduceMax rows frame column) indices rows
  | .count column => applyAggregateFrame spec (fun rows frame => reduceCount rows frame column) indices rows
  | .firstValue column =>
    eachRow spec.outputName (fun i rows =>
      let (start, _) := frameBounds spec.frame i n
      some (if start < n then cellAt rows indices start column else .null)) indices rows
  | .nthValue column nth =>
    eachRow spec.outputName (fun i rows =>
      let (start, stop) := frameBounds spec.frame i n
      (usizeSub overflowChecks nth.toNat 1).map fun skip =>
        let target := saturatingAdd start skip
        if target < stop ∧ target < n then cellAt rows indices target column else .null) indices rows
  | .lastValue column =>
    eachRow spec.outputName (fun i rows =>
      let (_, stop) := frameBounds spec.frame i n
      some (if 0 < stop ∧ stop ≤ n then cellAt rows indices (stop - 1) column else .null)) indices rows
  | .cumeDist => some (eachGroup spec n rows 0 indices)
  | .percentRank =>
    some (eachTie spec (fun i _ => i + 1)
      (fun rank => if n = 1 then jsonFloat (.zero false) else quotient (rank - 1) (n - 1)) indices rows)

variable (text : Json → Bytes)

/-- The rows of a bucket, as they come. -/
def bucket (spec : WindowSpec) (rows : Rows) (key : List KeyText) : List ℕ := (List.range rows.length).filter fun idx =>
    partitionKey spec rows idx = key

/-- The keys of the buckets, as they come. -/
def partitionOrder (spec : WindowSpec) (rows : Rows) : List (List KeyText) := ((List.range rows.length).map (partitionKey spec rows)).eraseDups

/-- The rows of a bucket in the order of the window. -/
def sortBucket (spec : WindowSpec) (rows : Rows) (indices : List ℕ) : List ℕ := indices.insertionSort fun a b =>
    compareRows text spec.orderBy rows a b ≠ .gt

def applyWindow (rows : Rows) (spec : WindowSpec) : Option Rows :=
  (partitionOrder spec rows).foldlM
    (fun acc key => computePartition overflowChecks spec (sortBucket text spec acc (bucket spec rows key)) acc) rows

end

/-! ## The loop over a partition -/

/-- The first rows of a partition have their values in the output column. -/
structure ColumnFilled (name : String) (indices : List ℕ) (outs : ℕ → Json) (m : ℕ) (rows acc : Rows) : Prop where
  length : acc.length = rows.length
  done : ∀ p < m, ∀ idx, indices[p]? = some idx → acc.get idx name = some (outs p)
  kept : ∀ idx column, (column ≠ name ∨ ∀ p < m, indices[p]? ≠ some idx) → acc.get idx column = rows.get idx column

variable {name : String} {indices : List ℕ} {outs : ℕ → Json} {rows : Rows}

theorem ColumnFilled.zero (name : String) (indices : List ℕ) (outs : ℕ → Json) (rows : Rows) : ColumnFilled name indices outs 0 rows rows where
  length := rfl
  done p hp := absurd hp (Nat.not_lt_zero p)
  kept _ _ _ := rfl

theorem ColumnFilled.insert {m : ℕ} {acc : Rows} (h : ColumnFilled name indices outs m rows acc) (hnodup : indices.Nodup)
    (hrange : ∀ idx ∈ indices, idx < rows.length) {idx : ℕ} (hidx : indices[m]? = some idx) :
    ColumnFilled name indices outs (m + 1) rows (acc.insert idx name (outs m)) := by
  have hlt : idx < acc.length := by
    rw [h.length]
    exact hrange idx (mem_of_getElem? hidx)
  refine ⟨by rw [Rows.length_insert, h.length], ?_, ?_⟩
  · intro p hp jdx hjdx
    rw [Rows.get_insert hlt]
    by_cases hsame : jdx = idx
    · -- a row is at one position only
      obtain rfl : p = m := by
        obtain ⟨hp', hpe⟩ := List.getElem?_eq_some_iff.1 hjdx
        obtain ⟨hm', hme⟩ := List.getElem?_eq_some_iff.1 hidx
        exact (List.Nodup.getElem_inj_iff hnodup).1 (by rw [hpe, hme, hsame])
      rw [if_pos ⟨hsame, rfl⟩]
    · rw [if_neg (fun hand => hsame hand.1)]
      rcases Nat.lt_succ_iff_lt_or_eq.1 hp with hlt' | rfl
      · exact h.done p hlt' jdx hjdx
      · rw [hidx] at hjdx
        exact absurd (Option.some.inj hjdx).symm hsame
  · intro jdx column hkept
    rw [Rows.get_insert hlt, if_neg ?_]
    · exact h.kept jdx column (hkept.imp_right fun hall p hp => hall p (Nat.lt_succ_of_lt hp))
    · rintro ⟨rfl, rfl⟩
      rcases hkept with hcolumn | hall
      · exact hcolumn rfl
      · exact hall m (Nat.lt_succ_self m) hidx

/-- The loop, when what a row gets is known from what the rows before it got. -/
theorem eachRow_filled {value : ℕ → Rows → Option Json} (hnodup : indices.Nodup) (hrange : ∀ idx ∈ indices, idx < rows.length)
    (hvalue : ∀ i < indices.length, ∀ acc, ColumnFilled name indices outs i rows acc → value i acc = some (outs i)) :
    ∃ rows', eachRow name value indices rows = some rows' ∧ ColumnFilled name indices outs indices.length rows rows' := by
  suffices h : ∀ (todo done : List ℕ) (acc : Rows), done ++ todo = indices → ColumnFilled name indices outs done.length rows acc →
      ∃ rows', (todo.zipIdx done.length).foldlM (fun rows row => (value row.2 rows).map fun v => rows.insert row.1 name v) acc = some rows' ∧
        ColumnFilled name indices outs indices.length rows rows' from h indices [] rows rfl (ColumnFilled.zero name indices outs rows)
  intro todo
  induction todo with
  | nil =>
    intro done acc heq hfilled
    rw [append_nil] at heq
    exact ⟨acc, rfl, heq ▸ hfilled⟩
  | cons idx todo ih =>
    intro done acc heq hfilled
    have hidx : indices[done.length]? = some idx := by rw [← heq]; simp
    have hlen : done.length < indices.length := by rw [← heq]; simp
    rw [zipIdx_cons, foldlM_cons, hvalue _ hlen acc hfilled]
    have hnext := ih (done ++ [idx]) (acc.insert idx name (outs done.length)) (by simpa using heq)
      (by simpa using hfilled.insert hnodup hrange hidx)
    simpa using hnext

/-- The loop panics at the first row if that has no value. -/
theorem eachRow_none {value : ℕ → Rows → Option Json} (hne : indices ≠ []) (hvalue : value 0 rows = none) : eachRow name value indices rows = none := by
  cases indices with
  | nil => exact absurd rfl hne
  | cons idx indices => simp [eachRow, hvalue]

theorem ColumnFilled.cellAt {rows' : Rows} (h : ColumnFilled name indices outs indices.length rows rows') {i : ℕ} (hi : i < indices.length) :
    cellAt rows' indices i name = outs i := by
  unfold Query.cellAt Rows.cell
  rw [getElem?_eq_getElem hi, Option.map_some, Option.getD_some, h.done i hi _ (getElem?_eq_getElem hi), Option.getD_some]

/-- What a row reads that has not been overwritten. -/
theorem ColumnFilled.cellAt_kept {m : ℕ} {acc : Rows} (h : ColumnFilled name indices outs m rows acc) (hnodup : indices.Nodup) {p : ℕ} {column : String}
    (hkept : name ≠ column ∨ m ≤ p) : Query.cellAt acc indices p column = Query.cellAt rows indices p column := by
  unfold Query.cellAt Rows.cell
  cases hidx : indices[p]? with
  | none => rfl
  | some idx =>
    rw [Option.map_some, Option.map_some, h.kept idx column]
    rcases hkept with hname | hle
    · exact .inl hname.symm
    · refine .inr fun q hq hqidx => ?_
      obtain ⟨hp', hpe⟩ := List.getElem?_eq_some_iff.1 hidx
      obtain ⟨hq', hqe⟩ := List.getElem?_eq_some_iff.1 hqidx
      have := (List.Nodup.getElem_inj_iff hnodup).1 (hpe.trans hqe.symm)
      omega

end FerroDruid.Query
