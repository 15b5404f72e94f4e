import FerroDruid.Query.WindowOrder
/-!
# What the ranking functions mean

A partition of a window, row by row, and the value that each ranking function has
there. The code splits the rows, and tells ties, by the texts of keys; its `LAG`
reads what it has overwritten, and its `LEAD` adds without a bound.
-/

namespace FerroDruid.Query

open Lib List

/-! ## What a partition gets -/

/-- The key of the row at a position. -/
def keyAt (spec : WindowSpec) (rows : Rows) (indices : List ℕ) (i : ℕ) : Option (List KeyText) := (indices[i]?).map (orderKey spec rows)

def rankOf (fresh : ℕ → ℕ → ℕ) (spec : WindowSpec) (rows : Rows) (indices : List ℕ) (i : ℕ) : ℕ := tieNumber (keyAt spec rows indices) fresh i

/-- The position of a cell `offset` rows later, which wraps. -/
def leadTarget (i offset : ℕ) : ℕ := if i + offset < 2 ^ 64 then i + offset else i + offset - 2 ^ 64

/-- What the rows of a partition get, from the cells as they were. -/
def partitionOuts (overflowChecks : Bool) (spec : WindowSpec) (rows : Rows) (indices : List ℕ) : Option (ℕ → Json) :=
  let n := indices.length
  match spec.function with
  | .rowNumber => some fun i => jsonInt (Int64.ofNat (i + 1))
  | .rank => some fun i => jsonInt (Int64.ofNat (rankOf (fun i _ => i + 1) spec rows indices i))
  | .denseRank => some fun i => jsonInt (Int64.ofNat (rankOf (fun _ current => current + 1) spec rows indices i))
  | .percentRank =>
    some fun i => if n = 1 then jsonFloat (.zero false) else quotient (rankOf (fun i _ => i + 1) spec rows indices i - 1) (n - 1)
  | .cumeDist => some fun i => quotient (runEnd (keyAt spec rows indices) n i) n
  | .lag column offset =>
    some fun i =>
      if spec.outputName = column ∧ offset.toNat ≠ 0 then .null
      else if offset.toNat ≤ i then cellAt rows indices (i - offset.toNat) column else .null
  | .lead column offset =>
    if overflowChecks = true ∧ 2 ^ 64 < n + offset.toNat then none
    else
      some fun i =>
        if 2 ^ 64 ≤ i + offset.toNat ∧ spec.outputName = column then .null
        else if leadTarget i offset.toNat < n then cellAt rows indices (leadTarget i offset.toNat) column else .null
  | _ => none

/-- A function by the place of the row. -/
def WindowFunctionKind.IsRanking : WindowFunctionKind → Prop
  | .rowNumber | .rank | .denseRank | .percentRank | .cumeDist | .lag _ _ | .lead _ _ => True
  | _ => False

variable {overflowChecks : Bool} {spec : WindowSpec} {rows : Rows} {indices : List ℕ}

/-- The rows of a partition. -/
structure IsBucket (rows : Rows) (indices : List ℕ) : Prop where
  nodup : indices.Nodup
  range : ∀ idx ∈ indices, idx < rows.length
  short : indices.length < 2 ^ 63

theorem keyAt_eq_some {i : ℕ} (hi : i < indices.length) : keyAt spec rows indices i = some (orderKey spec rows indices[i]) := by
  rw [keyAt, getElem?_eq_getElem hi, Option.map_some]

variable {acc : Rows}

/-- The keys of the rows that have not been written. -/
theorem ColumnFilled.orderKey_kept {outs : ℕ → Json} {m : ℕ} (h : ColumnFilled spec.outputName indices outs m rows acc)
    (hnodup : indices.Nodup) {p : ℕ} (hp : p < indices.length) (hle : m ≤ p) : orderKey spec acc indices[p] = orderKey spec rows indices[p] := by
  refine map_congr_left fun o _ => ?_
  rw [h.kept _ _ (.inr fun q hq hqidx => ?_)]
  obtain ⟨hq', hqe⟩ := List.getElem?_eq_some_iff.1 hqidx
  have := (List.Nodup.getElem_inj_iff hnodup).1 hqe
  omega

/-- The scan before the row at a position. -/
def scanAt (fresh : ℕ → ℕ → ℕ) (spec : WindowSpec) (rows : Rows) (indices : List ℕ) : ℕ → TieScan
  | 0 => { lastKey := none, current := 0 }
  | m + 1 => { lastKey := keyAt spec rows indices m, current := rankOf fresh spec rows indices m }

theorem scanAt_succ (fresh : ℕ → ℕ → ℕ) {m : ℕ} (hm : m < indices.length) :
    (scanAt fresh spec rows indices m).next (orderKey spec rows indices[m]) (fresh m (scanAt fresh spec rows indices m).current) =
      scanAt fresh spec rows indices (m + 1) := by
  cases m with
  | zero =>
    rw [TieScan.next, if_neg (by simp [scanAt]), scanAt, scanAt, keyAt_eq_some hm]
    rfl
  | succ m =>
    have hlast : (scanAt fresh spec rows indices (m + 1)).lastKey = keyAt spec rows indices m := rfl
    rw [TieScan.next, hlast, ← keyAt_eq_some hm]
    by_cases hsame : keyAt spec rows indices m = keyAt spec rows indices (m + 1)
    · rw [if_pos hsame, scanAt, scanAt, hsame, rankOf, rankOf, tieNumber, if_pos hsame.symm]
    · rw [if_neg hsame, scanAt, scanAt, rankOf, rankOf, tieNumber, if_neg (Ne.symm hsame), keyAt_eq_some hm]

/-- The loop of the ranks. -/
theorem eachTie_filled (h : IsBucket rows indices) (fresh : ℕ → ℕ → ℕ) (value : ℕ → Json) :
    ColumnFilled spec.outputName indices (fun i => value (rankOf fresh spec rows indices i)) indices.length rows
      (eachTie spec fresh value indices rows) := by
  suffices hloop : ∀ (todo done : List ℕ) (acc : Rows), done ++ todo = indices →
      ColumnFilled spec.outputName indices (fun i => value (rankOf fresh spec rows indices i)) done.length rows acc →
      ColumnFilled spec.outputName indices (fun i => value (rankOf fresh spec rows indices i)) indices.length rows
        ((todo.zipIdx done.length).foldl (fun (acc : Rows × TieScan) row =>
          let scan := acc.2.next (orderKey spec acc.1 row.1) (fresh row.2 acc.2.current)
          (acc.1.insert row.1 spec.outputName (value scan.current), scan)) (acc, scanAt fresh spec rows indices done.length)).1 from
    hloop indices [] rows rfl (ColumnFilled.zero ..)
  intro todo
  induction todo with
  | nil =>
    intro done acc heq hfilled
    rw [append_nil] at heq
    exact heq ▸ hfilled
  | cons idx todo ih =>
    intro done acc heq hfilled
    have hlen : done.length < indices.length := by rw [← heq]; simp
    have hidx : indices[done.length]? = some idx := by rw [← heq]; simp
    have hget : indices[done.length] = idx := by rw [getElem?_eq_getElem hlen] at hidx; exact Option.some.inj hidx
    have hkey := hfilled.orderKey_kept h.nodup hlen (le_refl _)
    rw [hget] at hkey
    have hscan := @scanAt_succ spec rows _ fresh _ hlen
    rw [hget] at hscan
    rw [zipIdx_cons, foldl_cons]
    simp only [hkey, hscan]
    have hnext := ih (done ++ [idx]) (acc.insert idx spec.outputName (value (rankOf fresh spec rows indices done.length))) (by simpa using heq)
      (by simpa using hfilled.insert h.nodup h.range hidx)
    rw [length_append] at hnext
    exact hnext

/-- The rows of a group get one value. -/
theorem ColumnFilled.group {name : String} {outs : ℕ → Json} {v : Json} (hnodup : indices.Nodup) (hrange : ∀ idx ∈ indices, idx < rows.length)
    (group : List ℕ) {done rest : List ℕ} (heq : done ++ (group ++ rest) = indices) {acc : Rows}
    (h : ColumnFilled name indices outs done.length rows acc) (hvalue : ∀ p, done.length ≤ p → p < done.length + group.length → outs p = v) :
    ColumnFilled name indices outs (done.length + group.length) rows (group.foldl (fun acc rowIdx => acc.insert rowIdx name v) acc) := by
  induction group generalizing done acc with
  | nil => exact h
  | cons idx group ih =>
    have hidx : indices[done.length]? = some idx := by rw [← heq]; simp
    have hinsert := h.insert hnodup hrange hidx
    rw [hvalue done.length (le_refl _) (by simp)] at hinsert
    have hnext := @ih (done ++ [idx]) (by simpa using heq) _ (by simpa using hinsert) fun p hlow hhigh => by
      rw [length_append, length_singleton] at hlow hhigh
      exact hvalue p (by omega) (by rw [length_cons]; omega)
    rw [length_append, length_singleton] at hnext
    rw [length_cons, ← Nat.add_assoc, Nat.add_right_comm]
    exact hnext

theorem runEnd_eq_of_run {κ : Type} [DecidableEq κ] {key : ℕ → κ} {n stop : ℕ} (hstop : stop ≤ n) (hover : stop < n → key stop ≠ key (stop - 1))
    {i : ℕ} (hi : i < stop) (hrun : ∀ p, i ≤ p → p + 1 < stop → key (p + 1) = key p) : runEnd key n i = stop := by
  rw [runEnd]
  rcases Nat.eq_or_lt_of_le (Nat.succ_le_of_lt hi) with heq | hlt
  · rw [if_neg]
    · exact heq
    · rintro ⟨hn, hsame⟩
      exact hover (by omega) (by rw [← heq, Nat.succ_sub_one]; exact hsame)
  · rw [if_pos ⟨by omega, hrun i (le_refl _) hlt⟩]
    exact runEnd_eq_of_run hstop hover hlt fun p hp => hrun p (by omega)
  termination_by stop - i

/-- A group ends where the key changes. -/
theorem runEnd_of_group {κ : Type} [DecidableEq κ] {key : ℕ → Option κ} {g : ℕ → κ} {k : κ} {done group rest : List ℕ}
    (heq : done ++ (group ++ rest) = indices) (hkeys : ∀ p (hp : p < indices.length), done.length ≤ p → key p = some (g indices[p]))
    (hgroup : ∀ idx ∈ group, g idx = k) (hrest : ∀ idx, rest.head? = some idx → g idx ≠ k) {p : ℕ} (hlow : done.length ≤ p)
    (hhigh : p < done.length + group.length) : runEnd key indices.length p = done.length + group.length := by
  have hlen : done.length + group.length + rest.length = indices.length := by rw [← heq]; simp [Nat.add_assoc]
  have hin : ∀ q, done.length ≤ q → q < done.length + group.length → key q = some k := by
    intro q hq hq'
    have hq₁ : q < indices.length := by omega
    have hget : indices[q] = group[q - done.length] := by
      simp only [← heq]
      rw [getElem_append_right hq, getElem_append_left]
    rw [hkeys q (by omega) hq, hget, hgroup _ (getElem_mem _)]
  refine runEnd_eq_of_run (by omega) (fun hstop => ?_) hhigh fun q hq hq' => ?_
  · rw [hin (done.length + group.length - 1) (by omega) (by omega), hkeys _ hstop (by omega)]
    have hget : rest.head? = some indices[done.length + group.length] := by
      rw [head?_eq_getElem?, getElem?_eq_getElem (by omega)]
      simp only [← heq]
      rw [getElem_append_right (by omega), getElem_append_right (by omega)]
      congr 2
      omega
    exact fun hsame => hrest _ hget (Option.some.inj hsame)
  · rw [hin q (by omega) (by omega), hin (q + 1) (by omega) hq']

/-- The loop over the tie groups. -/
theorem eachGroup_filled (h : IsBucket rows indices) :
    ColumnFilled spec.outputName indices (fun i => quotient (runEnd (keyAt spec rows indices) indices.length i) indices.length) indices.length rows
      (eachGroup spec indices.length rows 0 indices) := by
  suffices hloop : ∀ (fuel : ℕ) (todo done : List ℕ) (acc : Rows), todo.length ≤ fuel → done ++ todo = indices →
      ColumnFilled spec.outputName indices (fun i => quotient (runEnd (keyAt spec rows indices) indices.length i) indices.length) done.length rows acc →
      ColumnFilled spec.outputName indices (fun i => quotient (runEnd (keyAt spec rows indices) indices.length i) indices.length) indices.length rows
        (eachGroup spec indices.length acc done.length todo) from
    hloop indices.length indices [] rows (le_refl _) rfl (ColumnFilled.zero ..)
  intro fuel
  induction fuel with
  | zero =>
    intro todo done acc hfuel heq hfilled
    obtain rfl := length_eq_zero_iff.1 (Nat.le_zero.1 hfuel)
    rw [append_nil] at heq
    rw [eachGroup]
    exact heq ▸ hfilled
  | succ fuel ih =>
    intro todo done acc hfuel heq hfilled
    cases todo with
    | nil =>
      rw [append_nil] at heq
      rw [eachGroup]
      exact heq ▸ hfilled
    | cons idx rest =>
      -- the keys of the rows ahead are as they were
      have hkeys : ∀ p (hp : p < indices.length), done.length ≤ p → keyAt spec rows indices p = some (orderKey spec acc indices[p]) :=
        fun p hp hle => by rw [keyAt_eq_some hp, hfilled.orderKey_kept h.nodup hp hle]
      rw [eachGroup]
      generalize hsame : (fun next => decide (orderKey spec acc next = orderKey spec acc idx)) = same
      have hsplit : done ++ ((idx :: rest.takeWhile same) ++ rest.dropWhile same) = indices := by
        rw [cons_append, takeWhile_append_dropWhile, heq]
      have hgroup : ∀ jdx ∈ idx :: rest.takeWhile same, orderKey spec acc jdx = orderKey spec acc idx := by
        intro jdx hjdx
        rcases mem_cons.1 hjdx with rfl | hjdx
        · rfl
        · have htrue := mem_takeWhile_imp hjdx
          rw [← hsame] at htrue
          exact of_decide_eq_true htrue
      have hrest : ∀ jdx, (rest.dropWhile same).head? = some jdx → orderKey spec acc jdx ≠ orderKey spec acc idx := by
        intro jdx hjdx
        have hfalse := head?_dropWhile_not same rest
        rw [hjdx, ← hsame] at hfalse
        exact of_decide_eq_false hfalse
      have hnext := hfilled.group h.nodup h.range _ hsplit fun p hlow hhigh => by rw [runEnd_of_group hsplit hkeys hgroup hrest hlow hhigh]
      rw [← length_append] at hnext
      have hle := length_dropWhile_le same rest
      rw [length_cons] at hfuel
      have hdone := ih (rest.dropWhile same) (done ++ idx :: rest.takeWhile same) _ (by omega) (by rw [append_assoc, hsplit]) hnext
      rw [length_append] at hdone
      exact hdone

theorem foldlM_none {α β : Type} {f : β → α → Option β} {l : List α} {a : α} (ha : a ∈ l)
    (hnone : ∀ b, f b a = none) (b : β) : l.foldlM f b = none := by
  induction l generalizing b with
  | nil => cases ha
  | cons c l ih =>
    rw [foldlM_cons]
    rcases mem_cons.1 ha with rfl | ha
    · rw [hnone]
      rfl
    · cases f b c with
      | none => rfl
      | some b' => exact ih ha b'

/-- The loop, read back: no result, or these values. -/
theorem computePartition_outs (hranking : spec.function.IsRanking) (h : IsBucket rows indices) :
    match partitionOuts overflowChecks spec rows indices with
    | none => computePartition overflowChecks spec indices rows = none
    | some outs => ∃ rows', computePartition overflowChecks spec indices rows = some rows' ∧
        ColumnFilled spec.outputName indices outs indices.length rows rows' := by
  unfold partitionOuts computePartition
  cases hfunction : spec.function with
  | rowNumber => exact eachRow_filled h.nodup h.range fun _ _ _ _ => rfl
  | rank => exact ⟨_, rfl, eachTie_filled h _ fun rank => jsonInt (Int64.ofNat rank)⟩
  | denseRank => exact ⟨_, rfl, eachTie_filled h _ fun rank => jsonInt (Int64.ofNat rank)⟩
  | percentRank => exact ⟨_, rfl, eachTie_filled h _ fun rank => if indices.length = 1 then _ else quotient (rank - 1) (indices.length - 1)⟩
  | cumeDist => exact ⟨_, rfl, eachGroup_filled h⟩
  | lag column offset =>
    refine eachRow_filled h.nodup h.range fun i hi acc hfilled => congrArg some ?_
    by_cases hle : offset.toNat ≤ i
    · rw [if_pos hle]
      by_cases hself : spec.outputName = column ∧ offset.toNat ≠ 0
      · obtain ⟨rfl, hoffset⟩ := hself
        -- what is read has been written
        have hdone := hfilled.done (i - offset.toNat) (by omega) _ (getElem?_eq_getElem (by omega))
        rw [if_pos ⟨rfl, hoffset⟩] at hdone
        rw [if_pos ⟨rfl, hoffset⟩, cellAt, getElem?_eq_getElem (by omega), Option.map_some, Option.getD_some, Rows.cell, hdone]
        rfl
      · rw [if_neg hself, if_pos hle]
        refine hfilled.cellAt_kept h.nodup ?_
        rw [not_and_or, not_not] at hself
        exact hself.imp_right fun hzero => by omega
    · rw [if_neg hle, if_neg hle, ite_self]
  | lead column offset =>
    have hoffset := offset.toNat_lt
    have hshort := h.short
    dsimp only
    by_cases hpanic : overflowChecks = true ∧ 2 ^ 64 < indices.length + offset.toNat
    · rw [if_pos hpanic]
      have hlast : indices.length - 1 < indices.length := by omega
      refine foldlM_none (a := (indices[indices.length - 1], indices.length - 1)) ?_ (fun acc => ?_) _
      · exact mem_iff_getElem.2 ⟨indices.length - 1, by rw [length_zipIdx]; exact hlast, by simp⟩
      · have hadd : usizeAdd overflowChecks (indices.length - 1) offset.toNat = none := by
          rw [usizeAdd, if_neg (by omega), if_pos hpanic.1]
        simp only [hadd]
        rfl
    · rw [if_neg hpanic]
      refine eachRow_filled h.nodup h.range fun i hi acc hfilled => ?_
      have hadd : usizeAdd overflowChecks i offset.toNat = some (leadTarget i offset.toNat) := by
        unfold usizeAdd leadTarget
        split_ifs with hlt hchecks
        · rfl
        · exact absurd ⟨hchecks, by omega⟩ hpanic
        · rfl
      rw [hadd, Option.map_some]
      congr 1
      by_cases htarget : leadTarget i offset.toNat < indices.length
      · rw [if_pos htarget, if_pos htarget]
        by_cases hself : 2 ^ 64 ≤ i + offset.toNat ∧ spec.outputName = column
        · obtain ⟨hwrap, rfl⟩ := hself
          -- the target is an earlier row, which has no row that far ahead either
          have hlt : leadTarget i offset.toNat < i := by
            unfold leadTarget
            split_ifs <;> omega
          have hpast : 2 ^ 64 ≤ leadTarget i offset.toNat + offset.toNat ∨
              ¬ leadTarget (leadTarget i offset.toNat) offset.toNat < indices.length := by
            unfold leadTarget
            split_ifs <;> omega
          have hdone := hfilled.done (leadTarget i offset.toNat) hlt _ (getElem?_eq_getElem htarget)
          rw [if_pos ⟨hwrap, rfl⟩, cellAt, getElem?_eq_getElem htarget, Option.map_some, Option.getD_some, Rows.cell, hdone, Option.getD_some]
          rcases hpast with hpast | hpast
          · rw [if_pos ⟨hpast, rfl⟩]
          · rw [if_neg hpast, ite_self]
        · rw [if_neg hself]
          refine hfilled.cellAt_kept h.nodup ?_
          rw [not_and_or, not_le] at hself
          rcases hself with hlt | hname
          · refine .inr ?_
            rw [leadTarget, if_pos hlt]
            omega
          · exact .inl hname
      · rw [if_neg htarget, if_neg htarget, ite_self]
  | _ =>
    rw [hfunction] at hranking
    exact hranking.elim

/-! ## All partitions -/

variable {text : Json → Bytes}

theorem nodup_eraseDups {α : Type} [BEq α] [LawfulBEq α] (l : List α) : l.eraseDups.Nodup := by
  cases l with
  | nil => exact nodup_nil
  | cons a l =>
    rw [eraseDups_cons]
    refine nodup_cons.2 ⟨fun hmem => ?_, nodup_eraseDups _⟩
    simpa using mem_eraseDups.1 hmem
  termination_by l.length
  decreasing_by exact Nat.lt_succ_of_le (length_filter_le ..)

/-- The rows of a partition, as the code sorts them. -/
def orderOf (text : Json → Bytes) (spec : WindowSpec) (rows : Rows) (key : List KeyText) : List ℕ := sortBucket text spec rows (bucket spec rows key)

variable {key : List KeyText}

theorem mem_bucket {idx : ℕ} : idx ∈ bucket spec rows key ↔ idx < rows.length ∧ partitionKey spec rows idx = key := by
  simp [bucket]

theorem pairwise_bucket (key : List KeyText) : (bucket spec rows key).Pairwise (· < ·) := List.Pairwise.filter _ pairwise_lt_range

theorem mem_orderOf {idx : ℕ} : idx ∈ orderOf text spec rows key ↔ idx < rows.length ∧ partitionKey spec rows idx = key :=
  (mem_insertionSort _).trans mem_bucket

theorem isBucket_orderOf (hshort : rows.length < 2 ^ 63) (key : List KeyText) : IsBucket rows (orderOf text spec rows key) where
  nodup := (perm_insertionSort _ _).nodup_iff.2 ((pairwise_bucket key).imp fun h => h.ne)
  range idx hidx := (mem_orderOf.1 hidx).1
  short := by
    have hle : (bucket spec rows key).length ≤ rows.length := (length_filter_le ..).trans (length_range).le
    have hlen : (orderOf text spec rows key).length = (bucket spec rows key).length := length_insertionSort ..
    omega

/-- What a partition gets depends on its own cells. -/
theorem partitionOuts_congr (h : ∀ idx ∈ indices, ∀ column, acc.get idx column = rows.get idx column) :
    partitionOuts overflowChecks spec acc indices = partitionOuts overflowChecks spec rows indices := by
  have hkey : keyAt spec acc indices = keyAt spec rows indices := by
    funext i
    cases hidx : indices[i]? with
    | none => rw [keyAt, keyAt, hidx]; rfl
    | some idx =>
      rw [keyAt, keyAt, hidx, Option.map_some, Option.map_some]
      exact congrArg some (map_congr_left fun o _ => by rw [h idx (mem_of_getElem? hidx)])
  have hcell : ∀ i column, cellAt acc indices i column = cellAt rows indices i column := by
    intro i column
    cases hidx : indices[i]? with
    | none => rw [cellAt, cellAt, hidx]; rfl
    | some idx => rw [cellAt, cellAt, hidx, Option.map_some, Option.map_some, Rows.cell, Rows.cell, h idx (mem_of_getElem? hidx)]
  unfold partitionOuts rankOf
  rw [hkey]
  simp only [hcell]

theorem sortBucket_congr (h : ∀ idx ∈ indices, ∀ column, acc.get idx column = rows.get idx column) :
    sortBucket text spec acc indices = sortBucket text spec rows indices := by
  have hsame : ∀ a ∈ indices, ∀ b ∈ indices, compareRows text spec.orderBy acc a b = compareRows text spec.orderBy rows a b := by
    intro a ha b hb
    refine compareBy_congr (forall₂_same.2 fun key _ => ?_)
    exact ⟨rfl, h a ha key.1, h b hb key.1⟩
  have hsort := map_insertionSort (r := fun a b => compareRows text spec.orderBy acc a b ≠ .gt)
    (s := fun a b => compareRows text spec.orderBy rows a b ≠ .gt) id indices fun a ha b hb => by rw [hsame a ha b hb]; rfl
  rw [map_id, map_id] at hsort
  exact hsort

/-- Some partitions have their values, and the others are as they were. -/
structure PartitionsFilled (overflowChecks : Bool) (text : Json → Bytes) (spec : WindowSpec) (rows : Rows) (done : List (List KeyText))
    (acc : Rows) : Prop where
  length : acc.length = rows.length
  written : ∀ key ∈ done, ∃ outs, partitionOuts overflowChecks spec rows (orderOf text spec rows key) = some outs ∧
    ∀ i idx, (orderOf text spec rows key)[i]? = some idx → acc.get idx spec.outputName = some (outs i)
  kept : ∀ idx, partitionKey spec rows idx ∉ done → ∀ column, acc.get idx column = rows.get idx column

theorem PartitionsFilled.step (hranking : spec.function.IsRanking) (hshort : rows.length < 2 ^ 63) {done : List (List KeyText)}
    (h : PartitionsFilled overflowChecks text spec rows done acc) (hkey : key ∉ done) :
    match partitionOuts overflowChecks spec rows (orderOf text spec rows key) with
    | none => computePartition overflowChecks spec (sortBucket text spec acc (bucket spec rows key)) acc = none
    | some _ => ∃ acc', computePartition overflowChecks spec (sortBucket text spec acc (bucket spec rows key)) acc = some acc' ∧
        PartitionsFilled overflowChecks text spec rows (done ++ [key]) acc' := by
  have hagree : ∀ idx, partitionKey spec rows idx = key → ∀ column, acc.get idx column = rows.get idx column :=
    fun idx hidx => h.kept idx (hidx ▸ hkey)
  have hsort : sortBucket text spec acc (bucket spec rows key) = orderOf text spec rows key :=
    sortBucket_congr fun idx hidx => hagree idx (mem_bucket.1 hidx).2
  have hbucket := @isBucket_orderOf spec rows text hshort key
  have hcompute := @computePartition_outs overflowChecks spec acc (orderOf text spec rows key) hranking
    ⟨hbucket.nodup, fun idx hidx => h.length ▸ hbucket.range idx hidx, hbucket.short⟩
  rw [partitionOuts_congr fun idx hidx => hagree idx (mem_orderOf.1 hidx).2] at hcompute
  rw [hsort]
  cases houts : partitionOuts overflowChecks spec rows (orderOf text spec rows key) with
  | none =>
    rw [houts] at hcompute
    exact hcompute
  | some outs =>
    rw [houts] at hcompute
    obtain ⟨acc', hacc', hfilled⟩ := hcompute
    -- the rows of other partitions are not written
    have hother : ∀ idx, partitionKey spec rows idx ≠ key → ∀ column, acc'.get idx column = acc.get idx column := by
      intro idx hidx column
      refine hfilled.kept idx column (.inr fun p _ hp => hidx ?_)
      exact (mem_orderOf.1 (mem_of_getElem? hp)).2
    refine ⟨acc', hacc', hfilled.length.trans h.length, ?_, ?_⟩
    · intro key' hkey'
      rcases mem_append.1 hkey' with hdone | hnew
      · obtain ⟨outs', houts', hall⟩ := h.written key' hdone
        refine ⟨outs', houts', fun i idx hidx => ?_⟩
        rw [hother idx ?_ spec.outputName, hall i idx hidx]
        rw [(mem_orderOf.1 (mem_of_getElem? hidx)).2]
        exact fun heq => hkey (heq ▸ hdone)
      · obtain rfl := mem_singleton.1 hnew
        refine ⟨outs, houts, fun i idx hidx => ?_⟩
        obtain ⟨hi, -⟩ := List.getElem?_eq_some_iff.1 hidx
        exact hfilled.done i hi idx hidx
    · intro idx hidx column
      rw [mem_append, mem_singleton, not_or] at hidx
      rw [hother idx hidx.2, h.kept idx hidx.1]

/-- The window, read back. -/
theorem applyWindow_outs (hranking : spec.function.IsRanking) (hshort : rows.length < 2 ^ 63) :
    ((∃ key ∈ partitionOrder spec rows, partitionOuts overflowChecks spec rows (orderOf text spec rows key) = none) ∧
      applyWindow overflowChecks text rows spec = none) ∨
    ∃ rows', applyWindow overflowChecks text rows spec = some rows' ∧
      PartitionsFilled overflowChecks text spec rows (partitionOrder spec rows) rows' := by
  suffices hloop : ∀ (todo done : List (List KeyText)) (acc : Rows), (done ++ todo).Nodup →
      PartitionsFilled overflowChecks text spec rows done acc →
      ((∃ key ∈ todo, partitionOuts overflowChecks spec rows (orderOf text spec rows key) = none) ∧
        todo.foldlM (fun acc key => computePartition overflowChecks spec (sortBucket text spec acc (bucket spec rows key)) acc) acc = none) ∨
      ∃ rows', todo.foldlM (fun acc key => computePartition overflowChecks spec
        (sortBucket text spec acc (bucket spec rows key)) acc) acc = some rows' ∧
        PartitionsFilled overflowChecks text spec rows (done ++ todo) rows' from
    hloop (partitionOrder spec rows) [] rows (by rw [nil_append]; exact nodup_eraseDups _) ⟨rfl, nofun, fun _ _ _ => rfl⟩
  intro todo
  induction todo with
  | nil =>
    intro done acc _ hfilled
    exact .inr ⟨acc, rfl, by rwa [append_nil]⟩
  | cons key todo ih =>
    intro done acc hnodup hfilled
    have hkey : key ∉ done := fun hmem => (nodup_append.1 hnodup).2.2 key hmem key (mem_cons_self ..) rfl
    have hstep := hfilled.step hranking hshort hkey
    rw [foldlM_cons]
    cases houts : partitionOuts overflowChecks spec rows (orderOf text spec rows key) with
    | none =>
      rw [houts] at hstep
      exact .inl ⟨⟨key, mem_cons_self .., houts⟩, by rw [hstep]; rfl⟩
    | some outs =>
      rw [houts] at hstep
      obtain ⟨acc', hacc', hfilled'⟩ := hstep
      rw [hacc']
      have hrest := ih (done ++ [key]) acc' (by simpa using hnodup) hfilled'
      rw [append_assoc, singleton_append] at hrest
      rcases hrest with ⟨⟨key', hmem, hnone⟩, hfold⟩ | hsome
      · exact .inl ⟨⟨key', mem_cons_of_mem _ hmem, hnone⟩, hfold⟩
      · exact .inr hsome

end FerroDruid.Query
