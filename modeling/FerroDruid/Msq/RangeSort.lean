import FerroDruid.Lib.Sorting
import FerroDruid.Msq.Engine
/-!
# Range partitioning

The buckets of `range_partition` are consecutive stretches of the sorted rows, cut
between rows of different keys only. Keys are compared by `total_cmp` for the order and
by `PartialEq` for the cuts, and the two do not agree on a long and a double.
-/

namespace FerroDruid.Msq

open Lib List

/-! ## Comparing -/

instance : Std.TransCmp F64.totalCmp where
  eq_swap {x y} := by
    unfold F64.totalCmp
    exact @Std.OrientedCmp.eq_swap ℤ compare _ _ _
  isLE_trans {x y z} := by
    unfold F64.totalCmp
    exact @Std.TransCmp.isLE_trans ℤ compare _ _ _ _

theorem Value.totalCmp_swap (a b : Value) : a.totalCmp b = (b.totalCmp a).swap := by
  cases a <;> cases b
  case long.long => exact @Std.OrientedCmp.eq_swap ℤ compare _ _ _
  case double.double => exact @Std.OrientedCmp.eq_swap _ F64.totalCmp _ _ _
  case long.double => exact @Std.OrientedCmp.eq_swap _ F64.totalCmp _ _ _
  case double.long => exact @Std.OrientedCmp.eq_swap _ F64.totalCmp _ _ _
  case str.str => exact @Std.OrientedCmp.eq_swap _ (List.compareLex compareBytes) _ _ _
  all_goals rfl

theorem cmpByKeys_swap (a b : Row) (keyIdx : List ℕ) : cmpByKeys a b keyIdx = (cmpByKeys b a keyIdx).swap := by
  induction keyIdx with
  | nil => rfl
  | cons i keyIdx ih => rw [cmpByKeys, cmpByKeys, Value.totalCmp_swap, ih, Ordering.swap_then]

/-- The cells of a row under the key columns that it has. -/
def rowKey (keyIdx : List ℕ) (row : Row) : List Value := keyIdx.filterMap (row[·]?)

def sameKey (keyIdx : List ℕ) (a b : Row) : Bool :=
  (rowKey keyIdx a).length = (rowKey keyIdx b).length && ((rowKey keyIdx a).zipWith Value.beq (rowKey keyIdx b)).all id

theorem Value.beq_comm (a b : Value) : a.beq b = b.beq a := by
  cases a <;> cases b
  case double.double x y =>
    unfold Value.beq F64.beq
    cases hx : x.rank <;> cases hy : y.rank <;> simp only [hx, hy, eq_comm]
  case long.long => simp only [Value.beq, eq_comm]
  case str.str => simp only [Value.beq, eq_comm]
  all_goals rfl

theorem Value.beq_trans {a b c : Value} (hab : a.beq b = true) (hbc : b.beq c = true) : a.beq c = true := by
  cases a <;> cases b <;> cases c
  case double.double.double x y z =>
    unfold Value.beq F64.beq at *
    cases hx : x.rank <;> cases hy : y.rank <;> cases hz : z.rank <;> simp_all
  all_goals simp_all [Value.beq]

variable {a b : Row}

/-- What `Vec::eq` does with cells. -/
theorem sameKey_iff {keyIdx : List ℕ} :
    sameKey keyIdx a b = true ↔ List.Forall₂ (fun x y => x.beq y = true) (rowKey keyIdx a) (rowKey keyIdx b) := by
  unfold sameKey
  generalize rowKey keyIdx a = xs
  generalize rowKey keyIdx b = ys
  induction xs generalizing ys with
  | nil => cases ys <;> simp
  | cons x xs ih =>
    cases ys with
    | nil => simp
    | cons y ys =>
      rw [forall₂_cons, ← ih]
      simp [and_left_comm]

theorem sameKey_comm (keyIdx : List ℕ) (a b : Row) : sameKey keyIdx a b = sameKey keyIdx b a := by
  have hflip : ∀ {a b}, sameKey keyIdx a b = true → sameKey keyIdx b a = true := fun {a b} h =>
    sameKey_iff.2 ((sameKey_iff.1 h).flip.imp fun x y hxy => (Value.beq_comm x y).trans hxy)
  exact Bool.eq_iff_iff.2 ⟨hflip, hflip⟩

theorem sameKey_trans {keyIdx : List ℕ} {c : Row} (hab : sameKey keyIdx a b = true) (hbc : sameKey keyIdx b c = true) :
    sameKey keyIdx a c = true := by
  rw [sameKey_iff] at *
  generalize rowKey keyIdx a = xs at *
  generalize rowKey keyIdx b = ys at *
  generalize rowKey keyIdx c = zs at *
  induction hab generalizing zs with
  | nil =>
    cases hbc
    exact .nil
  | cons hxy _ ih =>
    cases hbc with
    | cons hyz hrest => exact .cons (Value.beq_trans hxy hyz) (ih _ hrest)

/-! ## Placing -/

/-- The buckets that sorted rows are placed in. -/
def placeAll (keyIdx : List ℕ) (n : ℕ) (indexed : List Row) : List (List Row) :=
  (indexed.foldl (rangePlace keyIdx n ((indexed.length + n - 1) / n)) ⟨List.replicate n [], 0, 0, none⟩).buckets

def sortRows (keyIdx : List ℕ) (rows : List Row) : List Row := rows.insertionSort fun a b => cmpByKeys a b keyIdx ≠ .gt

theorem rangePartition_eq (rows : List Row) (keyIdx : List ℕ) (n : ℕ) :
    rangePartition rows keyIdx n = if n ≤ 1 then [rows] else placeAll keyIdx n (sortRows keyIdx rows) := by
  rw [rangePartition, placeAll, sortRows, length_insertionSort]

theorem modify_append_length {α : Type} (xs : List α) (x : α) (ys : List α) (f : α → α) :
    (xs ++ x :: ys).modify xs.length f = xs ++ f x :: ys := by
  induction xs with
  | nil => rfl
  | cons y xs ih => rw [cons_append, length_cons, modify_succ_cons, ih, cons_append]

/-- The rows that were placed, in the buckets that are full and the current one. -/
structure Filled (keyIdx : List ℕ) (n : ℕ) (done : List Row) (full : List (List Row)) (current : List Row) (st : RangeState) : Prop where
  buckets : st.buckets = full ++ current :: List.replicate (n - full.length - 1) []
  cur : st.curBucket = full.length
  room : full.length < n
  placed : st.placedInCur = current.length
  prev : st.prevKey = done.getLast?.map (rowKey keyIdx)
  done : full.flatten ++ current = done
  filled : ∀ bucket ∈ full, bucket ≠ []
  started : current = [] → full = []

theorem filled_start {n : ℕ} (keyIdx : List ℕ) (hn : 0 < n) : Filled keyIdx n [] [] [] ⟨List.replicate n [], 0, 0, none⟩ where
  buckets := by
    obtain ⟨m, rfl⟩ := Nat.exists_eq_add_of_lt hn
    simp [replicate_succ]
  cur := rfl
  room := hn
  placed := rfl
  prev := rfl
  done := rfl
  filled := by simp
  started _ := rfl

/-- The next bucket begins with the row. -/
def Cuts (keyIdx : List ℕ) (n per : ℕ) (done : List Row) (full : List (List Row)) (current : List Row) (row : Row) : Prop :=
  per ≤ current.length ∧ full.length + 1 < n ∧ ∀ prev ∈ done.getLast?, sameKey keyIdx prev row = false

variable {keyIdx : List ℕ} {n per : ℕ} {done : List Row} {full : List (List Row)} {current : List Row} {st : RangeState}

theorem Filled.step (h : Filled keyIdx n done full current st) (hper : 0 < per) (row : Row) :
    (Cuts keyIdx n per done full current row ∧
      Filled keyIdx n (done ++ [row]) (full ++ [current]) [row] (rangePlace keyIdx n per st row)) ∨
    (¬ Cuts keyIdx n per done full current row ∧
      Filled keyIdx n (done ++ [row]) full (current ++ [row]) (rangePlace keyIdx n per st row)) := by
  have hsame : (st.prevKey.any fun prevKey => prevKey.length = (rowKey keyIdx row).length &&
      (prevKey.zipWith Value.beq (rowKey keyIdx row)).all id) = done.getLast?.any (sameKey keyIdx · row) := by
    rw [h.prev, Option.any_map]
    rfl
  have hcut : (per ≤ st.placedInCur ∧ st.curBucket + 1 < n ∧ ¬ (done.getLast?.any (sameKey keyIdx · row)) = true) ↔
      Cuts keyIdx n per done full current row := by
    rw [h.placed, h.cur, Option.any_eq_true]
    simp [Cuts]
  by_cases hcuts : Cuts keyIdx n per done full current row
  · refine .inl ⟨hcuts, ?_⟩
    have hplace : rangePlace keyIdx n per st row =
        ⟨st.buckets.modify (st.curBucket + 1) (· ++ [row]), st.curBucket + 1, 1, some (rowKey keyIdx row)⟩ := by
      unfold rangePlace
      dsimp only
      rw [if_pos]
      · rfl
      · exact (congrArg (fun same => per ≤ st.placedInCur ∧ st.curBucket + 1 < n ∧ ¬ same = true) hsame).mpr (hcut.2 hcuts)
    have hne : current ≠ [] := fun hnil => by
      have hfull := hcuts.1
      rw [hnil, length_nil] at hfull
      omega
    rw [hplace]
    exact {
      buckets := by
        obtain ⟨m, hm⟩ := Nat.exists_eq_add_of_lt hcuts.2.1
        have hsplit : full ++ current :: List.replicate (n - full.length - 1) [] = (full ++ [current]) ++ [] :: List.replicate m [] := by
          rw [show n - full.length - 1 = m + 1 by omega, replicate_succ, append_assoc, singleton_append]
        have hlength : st.curBucket + 1 = (full ++ [current]).length := by rw [h.cur, length_append, length_singleton]
        rw [h.buckets, hsplit, hlength, modify_append_length, ← hlength, h.cur, show n - (full.length + 1) - 1 = m by omega]
        rfl
      cur := by rw [h.cur, length_append, length_singleton]
      room := by
        rw [length_append, length_singleton]
        exact hcuts.2.1
      placed := rfl
      prev := by simp
      done := by rw [flatten_append, flatten_singleton, h.done]
      filled := forall_mem_append.2 ⟨h.filled, forall_mem_singleton.2 hne⟩
      started := fun hnil => absurd hnil (by simp) }
  · refine .inr ⟨hcuts, ?_⟩
    have hplace : rangePlace keyIdx n per st row =
        ⟨st.buckets.modify st.curBucket (· ++ [row]), st.curBucket, st.placedInCur + 1, some (rowKey keyIdx row)⟩ := by
      unfold rangePlace
      dsimp only
      rw [if_neg]
      · rfl
      · exact fun hyes => hcuts (hcut.1 ((congrArg (fun same => per ≤ st.placedInCur ∧ st.curBucket + 1 < n ∧ ¬ same = true) hsame).mp hyes))
    rw [hplace]
    exact {
      buckets := by rw [h.buckets, h.cur, modify_append_length]
      cur := h.cur
      room := h.room
      placed := by rw [h.placed, length_append, length_singleton]
      prev := by simp
      done := by rw [← append_assoc, h.done]
      filled := h.filled
      started := fun hnil => absurd hnil (by simp) }

/-! ## Buckets in order -/

/-- Every row of an earlier bucket comes before every row of a later one. -/
def Strict (keyIdx : List ℕ) (buckets : List (List Row)) : Prop :=
  buckets.Pairwise fun earlier later => ∀ a ∈ earlier, ∀ b ∈ later, cmpByKeys a b keyIdx = .lt

/-- Rows that compare equal have the same key, and no cycle is among them. -/
structure KeysAgree (keyIdx : List ℕ) (rows : List Row) : Prop where
  trans : ∀ a ∈ rows, ∀ b ∈ rows, ∀ c ∈ rows, cmpByKeys a b keyIdx ≠ .gt → cmpByKeys b c keyIdx ≠ .gt → cmpByKeys a c keyIdx ≠ .gt
  same : rows.Pairwise fun a b => cmpByKeys a b keyIdx = .eq → sameKey keyIdx a b = true

variable {rows : List Row}

theorem KeysAgree.proper (h : KeysAgree keyIdx rows) : Proper (cmpByKeys · · keyIdx) rows where
  swap a _ b _ := cmpByKeys_swap a b keyIdx
  trans := h.trans

theorem KeysAgree.perm {rows' : List Row} (h : KeysAgree keyIdx rows) (hperm : rows'.Perm rows) : KeysAgree keyIdx rows' where
  trans a ha b hb c hc := h.trans a (hperm.subset ha) b (hperm.subset hb) c (hperm.subset hc)
  same := by
    refine hperm.symm.pairwise h.same fun {a b} hab hba => ?_
    rw [sameKey_comm]
    refine hab ?_
    rw [cmpByKeys_swap, hba]
    rfl

variable {buckets : List (List Row)}

theorem strict_append_singleton {last : List Row} : Strict keyIdx (buckets ++ [last]) ↔
    Strict keyIdx buckets ∧ ∀ bucket ∈ buckets, ∀ a ∈ bucket, ∀ b ∈ last, cmpByKeys a b keyIdx = .lt := by
  unfold Strict
  rw [pairwise_append]
  simp

/-- A row keeps the buckets in order, unless it begins one and compares equal to the row
before. -/
theorem Strict.step_iff (hproper : Proper (cmpByKeys · · keyIdx) rows) {before : List Row} {prev row : Row}
    (h : Filled keyIdx n (before ++ [prev]) full current st) (hper : 0 < per) (hmem : ∀ a ∈ before ++ [prev] ++ [row], a ∈ rows)
    (hsorted : (before ++ [prev] ++ [row]).Pairwise fun a b => cmpByKeys a b keyIdx ≠ .gt) :
    (Cuts keyIdx n per (before ++ [prev]) full current row ∧
      Filled keyIdx n (before ++ [prev] ++ [row]) (full ++ [current]) [row] (rangePlace keyIdx n per st row) ∧
      (Strict keyIdx (full ++ [current] ++ [[row]]) ↔ Strict keyIdx (full ++ [current]) ∧ cmpByKeys prev row keyIdx ≠ .eq)) ∨
    (¬ Cuts keyIdx n per (before ++ [prev]) full current row ∧
      Filled keyIdx n (before ++ [prev] ++ [row]) full (current ++ [row]) (rangePlace keyIdx n per st row) ∧
      (Strict keyIdx (full ++ [current ++ [row]]) ↔ Strict keyIdx (full ++ [current]))) := by
  have hle : ∀ a ∈ before ++ [prev], cmpByKeys a row keyIdx ≠ .gt := fun a ha => (pairwise_append.1 hsorted).2.2 a ha row mem_cons_self
  have hrow : row ∈ rows := hmem row (by simp)
  have hdone : ∀ a ∈ before ++ [prev], a ∈ rows := fun a ha => hmem a (mem_append_left _ ha)
  have hprev : prev ∈ before ++ [prev] := by simp
  have hplaced : ∀ a, a ∈ before ++ [prev] ↔ ∃ bucket ∈ full ++ [current], a ∈ bucket := fun a => by
    rw [← h.done, ← mem_flatten, flatten_append, flatten_singleton]
  rcases h.step hper row with ⟨hcuts, hfilled⟩ | ⟨hcuts, hfilled⟩
  · refine .inl ⟨hcuts, hfilled, strict_append_singleton.trans (and_congr_right fun _ => ⟨fun hall heq => ?_, fun hne bucket hbucket a ha b hb => ?_⟩)⟩
    · obtain ⟨bucket, hbucket, hmemBucket⟩ := (hplaced prev).1 hprev
      rw [hall bucket hbucket prev hmemBucket row mem_cons_self] at heq
      cases heq
    · rw [mem_singleton.1 hb]
      have hadone := (hplaced a).2 ⟨bucket, hbucket, ha⟩
      -- the last row placed comes before the row, and all others no later
      have hlast : cmpByKeys prev row keyIdx = .lt := by
        cases hcmp : cmpByKeys prev row keyIdx <;> simp_all
      rcases mem_append.1 hadone with habefore | hlasta
      · have hap := (pairwise_append.1 (pairwise_append.1 hsorted).1).2.2 a habefore prev mem_cons_self
        rw [← hproper.rankIn_lt_iff (hdone a hadone) hrow]
        exact ((hproper.rankIn_le_iff (hdone a hadone) (hdone prev hprev)).2 hap).trans_lt
          ((hproper.rankIn_lt_iff (hdone prev hprev) hrow).2 hlast)
      · rwa [mem_singleton.1 hlasta]
  · refine .inr ⟨hcuts, hfilled, ?_⟩
    rw [strict_append_singleton, strict_append_singleton]
    refine and_congr_right fun _ => ⟨fun hall bucket hbucket a ha b hb => hall bucket hbucket a ha b (mem_append_left _ hb),
      fun hall bucket hbucket a ha b hb => ?_⟩
    rcases mem_append.1 hb with hb | hb
    · exact hall bucket hbucket a ha b hb
    · rw [mem_singleton.1 hb]
      have hne : current ≠ [] := fun hnil => by
        rw [h.started hnil] at hbucket
        exact absurd hbucket not_mem_nil
      obtain ⟨c, hc⟩ := exists_mem_of_ne_nil current hne
      have hcdone := (hplaced c).2 ⟨current, by simp, hc⟩
      have hadone := (hplaced a).2 ⟨bucket, mem_append_left _ hbucket, ha⟩
      exact hproper.lt_of_lt_of_le (hdone a hadone) (hdone c hcdone) hrow (hall bucket hbucket a ha c hc) (hle c hcdone)

/-- Rows in order, counted off into buckets, of which one holds some rows and more are
left: no bucket is full between two rows of different keys that compare equal. -/
def Undivided (keyIdx : List ℕ) (per : ℕ) : ℕ → ℕ → List Row → Prop
  | left, held, a :: b :: rest =>
    if per ≤ held ∧ 0 < left ∧ sameKey keyIdx a b = false then cmpByKeys a b keyIdx ≠ .eq ∧ Undivided keyIdx per (left - 1) 1 (b :: rest)
    else Undivided keyIdx per left (held + 1) (b :: rest)
  | _, _, _ => True

theorem undivided_of_same {left held : ℕ} {sorted : List Row} (h : sorted.Pairwise fun a b => cmpByKeys a b keyIdx = .eq → sameKey keyIdx a b = true) :
    Undivided keyIdx per left held sorted := by
  fun_induction Undivided keyIdx per left held sorted with
  | case1 left held a b rest hcut ih =>
    obtain ⟨hfirst, hrest⟩ := pairwise_cons.1 h
    refine ⟨fun heq => ?_, ih hrest⟩
    have hsame := hfirst b mem_cons_self heq
    rw [hcut.2.2] at hsame
    cases hsame
  | case2 left held a b rest hcut ih => exact ih (pairwise_cons.1 h).2
  | case3 => trivial

theorem strict_placed (hproper : Proper (cmpByKeys · · keyIdx) rows) (hper : 0 < per) {before : List Row} {prev : Row} (rest : List Row)
    (hmem : ∀ a ∈ before ++ [prev] ++ rest, a ∈ rows) (hsorted : (before ++ [prev] ++ rest).Pairwise fun a b => cmpByKeys a b keyIdx ≠ .gt)
    (h : Filled keyIdx n (before ++ [prev]) full current st) :
    ∃ full' current', Filled keyIdx n (before ++ [prev] ++ rest) full' current' (rest.foldl (rangePlace keyIdx n per) st) ∧
      (Strict keyIdx (full' ++ [current']) ↔
        Strict keyIdx (full ++ [current]) ∧ Undivided keyIdx per (n - full.length - 1) current.length (prev :: rest)) := by
  induction rest generalizing before prev full current st with
  | nil => exact ⟨full, current, by rwa [append_nil], (and_iff_left trivial).symm⟩
  | cons row rest ih =>
    rw [append_cons] at hmem hsorted ⊢
    have hcut : Cuts keyIdx n per (before ++ [prev]) full current row ↔
        per ≤ current.length ∧ 0 < n - full.length - 1 ∧ sameKey keyIdx prev row = false := by
      simp [Cuts, Nat.lt_sub_iff_add_lt, Nat.add_comm]
    rcases Strict.step_iff hproper h hper (fun a ha => hmem a (mem_append_left _ ha)) (pairwise_append.1 hsorted).1 with
      ⟨hcuts, hfilled, hstep⟩ | ⟨hcuts, hfilled, hstep⟩
    · obtain ⟨full', current', hfilled', hrest⟩ := ih hmem hsorted hfilled
      refine ⟨full', current', hfilled', ?_⟩
      rw [hrest, hstep, Undivided, if_pos (hcut.1 hcuts), length_append, length_singleton, length_singleton, and_assoc,
        Nat.sub_add_eq n full.length 1]
    · obtain ⟨full', current', hfilled', hrest⟩ := ih hmem hsorted hfilled
      refine ⟨full', current', hfilled', ?_⟩
      rw [hrest, hstep, Undivided, if_neg (mt hcut.2 hcuts), length_append, length_singleton]

/-- What a range shuffle into `n` buckets is for. -/
structure GlobalSort (keyIdx : List ℕ) (n : ℕ) (rows : List Row) (buckets : List (List Row)) : Prop where
  count : buckets.length = n
  perm : buckets.flatten.Perm rows
  apart : buckets.Pairwise fun earlier later => ∀ a ∈ earlier, ∀ b ∈ later, cmpByKeys a b keyIdx ≠ .gt
  together : buckets.Pairwise fun earlier later => ∀ a ∈ earlier, ∀ b ∈ later, cmpByKeys a b keyIdx ≠ .eq
  sorted : buckets.flatMap (sortRows keyIdx) = sortRows keyIdx rows

theorem perm_sortRows (keyIdx : List ℕ) (rows : List Row) : (sortRows keyIdx rows).Perm rows := perm_insertionSort _ _

/-- Rows in order are left as they are. -/
theorem sortRows_eq_self {rows : List Row} (h : rows.Pairwise fun a b => cmpByKeys a b keyIdx ≠ .gt) : sortRows keyIdx rows = rows :=
  List.Pairwise.insertionSort_eq h

theorem pos_ceilDiv {total n : ℕ} (htotal : 0 < total) (hn : 0 < n) : 0 < (total + n - 1) / n := Nat.div_pos (by omega) hn

theorem pairwise_sortRows (h : Proper (cmpByKeys · · keyIdx) rows) : (sortRows keyIdx rows).Pairwise fun a b => cmpByKeys a b keyIdx ≠ .gt := by
  refine pairwise_insertionSort_of (P := (· ∈ rows)) (fun a b _ _ => ?_) (fun a b c ha hb hc => h.trans a ha b hb c hc) fun _ hb => hb
  rw [cmpByKeys_swap a b]
  cases cmpByKeys b a keyIdx <;> simp

theorem GlobalSort.strict (h : GlobalSort keyIdx n rows buckets) : Strict keyIdx buckets := by
  refine h.apart.imp₂ (fun earlier later hapart htogether a ha b hb => ?_) h.together
  have hgt := hapart a ha b hb
  cases hcmp : cmpByKeys a b keyIdx <;> simp_all

/-- Where the comparison is a proper one on the rows, the buckets are a global sort if
and only if no two rows that compare equal are divided. -/
theorem globalSort_rangePartition_iff (h : Proper (cmpByKeys · · keyIdx) rows) (hn : 1 < n) :
    GlobalSort keyIdx n rows (rangePartition rows keyIdx n) ↔
      Undivided keyIdx ((rows.length + n - 1) / n) (n - 1) 1 (sortRows keyIdx rows) := by
  rw [rangePartition_eq, if_neg (not_le.2 hn)]
  have hsorted := pairwise_sortRows h
  have hperm := perm_sortRows keyIdx rows
  rw [← hperm.length_eq]
  have hpos : 0 < n := Nat.zero_lt_of_lt hn
  generalize hindexed : sortRows keyIdx rows = indexed at hsorted hperm ⊢
  cases indexed with
  | nil =>
    have hempty : placeAll keyIdx n [] = List.replicate n [] := rfl
    rw [hempty]
    refine iff_of_true ⟨length_replicate, by simpa using hperm, ?_, ?_, ?_⟩ trivial
    · exact pairwise_replicate.2 (.inr (by simp))
    · exact pairwise_replicate.2 (.inr (by simp))
    · rw [hindexed, flatMap_eq_nil_iff]
      intro bucket hbucket
      rw [eq_of_mem_replicate hbucket]
      rfl
  | cons first rest =>
    have hper := pos_ceilDiv (length_pos_of_ne_nil (cons_ne_nil first rest)) hpos
    have hfirst : Filled keyIdx n ([] ++ [first]) [] [first]
      (rangePlace keyIdx n (((first :: rest).length + n - 1) / n) ⟨List.replicate n [], 0, 0, none⟩ first) := by
      rcases (filled_start keyIdx hpos).step hper first with ⟨hcuts, -⟩ | ⟨-, hfilled⟩
      · exact absurd hcuts.1 (not_le.2 hper)
      · exact hfilled
    obtain ⟨full, current, hfilled, hiff⟩ := strict_placed h hper rest (fun a ha => hperm.subset ha) hsorted hfirst
    have hbuckets : placeAll keyIdx n (first :: rest) = (full ++ [current]) ++ List.replicate (n - full.length - 1) [] := by
      rw [placeAll, foldl_cons, hfilled.buckets, append_assoc, singleton_append]
    have hflatten : (placeAll keyIdx n (first :: rest)).flatten = first :: rest := by
      rw [hbuckets, flatten_append, flatten_append, flatten_singleton, hfilled.done]
      simp
    have hstrict : Strict keyIdx (placeAll keyIdx n (first :: rest)) ↔
        Undivided keyIdx (((first :: rest).length + n - 1) / n) (n - 1) 1 (first :: rest) := by
      rw [hbuckets, Strict, pairwise_append]
      refine Iff.trans ⟨fun hall => hall.1, fun hall => ⟨hall, pairwise_replicate.2 (.inr (by simp)), fun bucket _ empty hempty a _ b hb => ?_⟩⟩
        (hiff.trans (and_iff_right (by simp [Strict])))
      rw [eq_of_mem_replicate hempty] at hb
      exact absurd hb not_mem_nil
    refine ⟨fun hglobal => hstrict.1 hglobal.strict, fun hundivided => ?_⟩
    have hall := hstrict.2 hundivided
    have hroom := hfilled.room
    refine ⟨?_, ?_, ?_, ?_, ?_⟩
    · rw [hbuckets]
      simp only [length_append, length_singleton, length_replicate]
      omega
    · rw [hflatten]
      exact hperm
    · exact hall.imp fun hlt a ha b hb => by simp [hlt a ha b hb]
    · exact hall.imp fun hlt a ha b hb => by simp [hlt a ha b hb]
    · have hbucket : ∀ bucket ∈ placeAll keyIdx n (first :: rest), sortRows keyIdx bucket = bucket := fun bucket hmem =>
        sortRows_eq_self (hsorted.sublist (hflatten ▸ sublist_flatten_of_mem hmem))
      rw [hindexed, flatMap_def, map_congr_left hbucket, map_id', hflatten]

/-- One bucket takes all rows as they are, and more have no two rows that compare equal
divided, in an order that has no cycle. -/
def SortsInto (keyIdx : List ℕ) (n : ℕ) (rows : List Row) : Prop :=
  n = 1 ∨ Proper (cmpByKeys · · keyIdx) rows ∧ Undivided keyIdx ((rows.length + n - 1) / n) (n - 1) 1 (sortRows keyIdx rows)

theorem KeysAgree.sortsInto (h : KeysAgree keyIdx rows) (n : ℕ) : SortsInto keyIdx n rows :=
  .inr ⟨h.proper, undivided_of_same (h.perm (perm_sortRows keyIdx rows)).same⟩

theorem globalSort_one (keyIdx : List ℕ) (rows : List Row) : GlobalSort keyIdx 1 rows (rangePartition rows keyIdx 1) := by
  rw [rangePartition_eq, if_pos le_rfl]
  exact ⟨rfl, by simp, by simp, by simp, by simp⟩

theorem SortsInto.globalSort (h : SortsInto keyIdx n rows) (hn : 1 ≤ n) : GlobalSort keyIdx n rows (rangePartition rows keyIdx n) := by
  rcases Nat.lt_or_eq_of_le hn with hmore | rfl
  · rcases h with hone | ⟨hproper, hundivided⟩
    · omega
    · exact (globalSort_rangePartition_iff hproper hmore).2 hundivided
  · exact globalSort_one keyIdx rows

/-! ## Rows of one key -/

theorem length_rowKey_le (hlen : a.length ≤ b.length) (keyIdx : List ℕ) : (rowKey keyIdx a).length ≤ (rowKey keyIdx b).length := by
  induction keyIdx with
  | nil => exact le_rfl
  | cons i keyIdx ih =>
    unfold rowKey at ih ⊢
    by_cases ha : i < a.length
    · rw [filterMap_cons_some (getElem?_eq_getElem ha), filterMap_cons_some (getElem?_eq_getElem (ha.trans_le hlen))]
      exact Nat.succ_le_succ ih
    · rw [filterMap_cons_none (getElem?_eq_none (not_lt.1 ha))]
      cases hb : b[i]? with
      | none => rwa [filterMap_cons_none hb]
      | some y =>
        rw [filterMap_cons_some hb]
        exact ih.trans (Nat.le_succ _)

theorem beq_of_rowKey (hlen : a.length ≤ b.length) (h : List.Forall₂ (fun x y => x.beq y = true) (rowKey keyIdx a) (rowKey keyIdx b)) :
    ∀ i ∈ keyIdx, (a.getD i .null).beq (b.getD i .null) = true := by
  induction keyIdx with
  | nil => simp
  | cons i keyIdx ih =>
    unfold rowKey at h ih
    have hle := length_rowKey_le hlen keyIdx
    cases ha : a[i]? with
    | some x =>
      obtain ⟨hi, -⟩ := List.getElem?_eq_some_iff.1 ha
      obtain ⟨y, hb⟩ : ∃ y, b[i]? = some y := ⟨_, getElem?_eq_getElem (hi.trans_le hlen)⟩
      rw [filterMap_cons_some ha, filterMap_cons_some hb, forall₂_cons] at h
      refine forall_mem_cons.2 ⟨?_, ih h.2⟩
      rw [getD_eq_getElem?_getD, getD_eq_getElem?_getD, ha, hb]
      exact h.1
    | none =>
      rw [filterMap_cons_none ha] at h
      cases hb : b[i]? with
      | some y =>
        -- the longer row would have a longer key
        rw [filterMap_cons_some hb] at h
        have hlength : (rowKey keyIdx a).length = (rowKey keyIdx b).length + 1 := h.length_eq
        omega
      | none =>
        rw [filterMap_cons_none hb] at h
        refine forall_mem_cons.2 ⟨?_, ih h⟩
        rw [getD_eq_getElem?_getD, getD_eq_getElem?_getD, ha, hb]
        rfl

/-- Rows of one key agree cell by cell. -/
theorem beq_of_sameKey (h : sameKey keyIdx a b = true) : ∀ i ∈ keyIdx, (a.getD i .null).beq (b.getD i .null) = true := by
  rcases Nat.le_total a.length b.length with hlen | hlen
  · exact beq_of_rowKey hlen (sameKey_iff.1 h)
  · intro i hi
    rw [sameKey_comm] at h
    rw [Value.beq_comm]
    exact beq_of_rowKey hlen (sameKey_iff.1 h) i hi

def Value.doublePart : Value → F64
  | double v => v
  | _ => .zero false

/-- Equal cells are told apart as doubles only: by the sign of a zero. -/
theorem Value.totalCmp_of_beq {x y : Value} (h : x.beq y = true) : x.totalCmp y = x.doublePart.totalCmp y.doublePart := by
  have hzero : F64.totalCmp (.zero false) (.zero false) = .eq := Std.ReflCmp.compare_self
  cases x <;> cases y
  case double.double => rfl
  case null.null => exact hzero.symm
  case long.long a b =>
    rw [Value.beq, decide_eq_true_eq] at h
    subst h
    exact (@Std.ReflCmp.compare_self ℤ compare _ _).trans hzero.symm
  case str.str a b =>
    rw [Value.beq, decide_eq_true_eq] at h
    subst h
    exact (@Std.ReflCmp.compare_self _ (List.compareLex compareBytes) _ _).trans hzero.symm
  all_goals cases h

theorem cmpByKeys_of_beq (h : ∀ i ∈ keyIdx, (a.getD i .null).beq (b.getD i .null) = true) :
    cmpByKeys a b keyIdx = compareBy F64.totalCmp (fun i (row : Row) => (row.getD i .null).doublePart) (keyIdx.map (·, true)) a b := by
  induction keyIdx with
  | nil => rfl
  | cons i keyIdx ih =>
    obtain ⟨hi, hrest⟩ := forall_mem_cons.1 h
    rw [cmpByKeys, map_cons, compareBy, Value.totalCmp_of_beq hi, ih hrest]
    rfl

theorem cmpByKeys_trans_of_sameKey {c : Row} (hab : sameKey keyIdx a b = true) (hbc : sameKey keyIdx b c = true)
    (h : cmpByKeys a b keyIdx ≠ .gt) (h' : cmpByKeys b c keyIdx ≠ .gt) : cmpByKeys a c keyIdx ≠ .gt := by
  have htrans : Std.TransCmp (compareBy F64.totalCmp (fun i (row : Row) => (row.getD i .null).doublePart) (keyIdx.map (·, true))) :=
    transCmp_compareBy _ _
  rw [cmpByKeys_of_beq (beq_of_sameKey hab)] at h
  rw [cmpByKeys_of_beq (beq_of_sameKey hbc)] at h'
  rw [cmpByKeys_of_beq (beq_of_sameKey (sameKey_trans hab hbc))]
  exact Ordering.isLE_iff_ne_gt.1 (htrans.isLE_trans (Ordering.isLE_iff_ne_gt.2 h) (Ordering.isLE_iff_ne_gt.2 h'))

/-! ## A bucket for each key -/

/-- With no fewer buckets than rows, a bucket has rows of one key. -/
structure OneKey (keyIdx : List ℕ) (done : List Row) (full : List (List Row)) (current : List Row) : Prop where
  same : ∀ bucket ∈ full ++ [current], bucket.Pairwise fun a b => sameKey keyIdx a b = true
  count : done ≠ [] → full.length + 1 ≤ done.length

theorem OneKey.step (h : Filled keyIdx n done full current st) (hone : OneKey keyIdx done full current) (row : Row) (hn : done.length + 1 ≤ n) :
    ∃ full' current', Filled keyIdx n (done ++ [row]) full' current' (rangePlace keyIdx n 1 st row) ∧ OneKey keyIdx (done ++ [row]) full' current' := by
  rcases h.step Nat.one_pos row with ⟨hcuts, hfilled⟩ | ⟨hcuts, hfilled⟩
  · refine ⟨_, _, hfilled, forall_mem_append.2 ⟨hone.same, forall_mem_singleton.2 (pairwise_singleton _ _)⟩, fun _ => ?_⟩
    have hne : done ≠ [] := fun hnil => by
      have hcurrent : current = [] := (append_eq_nil_iff.1 (h.done.trans hnil)).2
      have hlength := hcuts.1
      rw [hcurrent, length_nil] at hlength
      omega
    have hcount := hone.count hne
    rw [length_append, length_append, length_singleton, length_singleton]
    omega
  · obtain ⟨hfull, hcurrent⟩ := forall_mem_append.1 hone.same
    rw [forall_mem_singleton] at hcurrent
    refine ⟨_, _, hfilled, forall_mem_append.2 ⟨hfull, forall_mem_singleton.2 ?_⟩, fun _ => ?_⟩
    · refine pairwise_append.2 ⟨hcurrent, pairwise_singleton _ _, fun a ha b hb => ?_⟩
      rw [mem_singleton.1 hb]
      have hne : current ≠ [] := ne_nil_of_mem ha
      have hlast : done.getLast? = some (current.getLast hne) := by
        rw [← h.done, getLast?_append_of_ne_nil _ hne, getLast?_eq_some_getLast hne]
      have hdone : done ≠ [] := fun hnil => by simp [hnil] at hlast
      have hcount := hone.count hdone
      -- the row was not put in a bucket of its own
      have hsame : sameKey keyIdx (current.getLast hne) row = true := by
        by_contra hnot
        rw [Bool.not_eq_true] at hnot
        refine hcuts ⟨length_pos_of_ne_nil hne, by omega, fun prev hprev => ?_⟩
        rw [hlast] at hprev
        rwa [← Option.mem_some_iff.1 hprev]
      rw [← dropLast_append_getLast hne] at ha hcurrent
      rcases mem_append.1 ha with ha | ha
      · exact sameKey_trans ((pairwise_append.1 hcurrent).2.2 a ha _ mem_cons_self) hsame
      · rw [mem_singleton.1 ha]
        exact hsame
    · rw [length_append, length_singleton]
      by_cases hdone : done = []
      · have hfull' : full = [] := h.started (append_eq_nil_iff.1 (h.done.trans hdone)).2
        rw [hfull', length_nil]
        omega
      · exact (hone.count hdone).trans (Nat.le_succ _)

theorem oneKey_placed (rest : List Row) (hn : (done ++ rest).length ≤ n) (h : Filled keyIdx n done full current st)
    (hone : OneKey keyIdx done full current) :
    ∃ full' current', Filled keyIdx n (done ++ rest) full' current' (rest.foldl (rangePlace keyIdx n 1) st) ∧
      OneKey keyIdx (done ++ rest) full' current' := by
  induction rest generalizing done full current st with
  | nil => exact ⟨full, current, by rwa [append_nil], by rwa [append_nil]⟩
  | cons row rest ih =>
    rw [append_cons] at hn ⊢
    have hdone : done.length + 1 ≤ n := by
      simp only [length_append, length_singleton] at hn
      omega
    obtain ⟨full', current', hfilled, hone'⟩ := hone.step h row hdone
    exact ih hn hfilled hone'

theorem oneKey_placeAll {indexed : List Row} (hne : indexed ≠ []) (hn : indexed.length ≤ n) :
    ∀ bucket ∈ placeAll keyIdx n indexed, bucket.Pairwise fun a b => sameKey keyIdx a b = true := by
  have hlength := length_pos_of_ne_nil hne
  have hper : (indexed.length + n - 1) / n = 1 := by
    rw [Nat.div_eq_iff (by omega)]
    omega
  obtain ⟨full, current, hfilled, hone⟩ := @oneKey_placed keyIdx n [] [] [] _ indexed hn (filled_start keyIdx (by omega)) ⟨by simp, by simp⟩
  intro bucket hbucket
  rw [placeAll, hper, hfilled.buckets] at hbucket
  rcases mem_append.1 hbucket with hbucket | hbucket
  · exact hone.same bucket (mem_append_left _ hbucket)
  · rcases mem_cons.1 hbucket with rfl | hbucket
    · exact hone.same bucket (by simp)
    · rw [eq_of_mem_replicate hbucket]
      exact .nil

/-- Buckets of one key each, of which every earlier one comes before every later one. -/
theorem keysAgree_of_buckets (hperm : buckets.flatten.Perm rows) (hstrict : Strict keyIdx buckets)
    (hone : ∀ bucket ∈ buckets, bucket.Pairwise fun a b => sameKey keyIdx a b = true) : KeysAgree keyIdx rows where
  same := by
    have hflatten : buckets.flatten.Pairwise fun a b => cmpByKeys a b keyIdx = .eq → sameKey keyIdx a b = true := by
      refine pairwise_flatten.2 ⟨fun bucket hbucket => (hone bucket hbucket).imp fun {a b} hsame (_ : cmpByKeys a b keyIdx =
        .eq) => hsame, hstrict.imp fun h a ha b hb heq => ?_⟩
      rw [h a ha b hb] at heq
      cases heq
    refine hperm.pairwise hflatten fun {a b} hab hba => ?_
    rw [sameKey_comm]
    refine hab ?_
    rw [cmpByKeys_swap, hba]
    rfl
  trans a ha b hb c hc hab hbc hac := by
    have hindex : ∀ r ∈ rows, ∃ i, ∃ h : i < buckets.length, r ∈ buckets[i] := fun r hr => by
      obtain ⟨bucket, hbucket, hmem⟩ := mem_flatten.1 (hperm.symm.subset hr)
      obtain ⟨i, hi, rfl⟩ := mem_iff_getElem.1 hbucket
      exact ⟨i, hi, hmem⟩
    have hlt : ∀ {i j} (hi : i < buckets.length) (hj : j < buckets.length), i < j → ∀ x ∈ buckets[i], ∀ y ∈ buckets[j],
        cmpByKeys x y keyIdx = .lt := fun hi hj hij => pairwise_iff_getElem.1 hstrict _ _ hi hj hij
    have hle : ∀ {i j} (hi : i < buckets.length) (hj : j < buckets.length), ∀ x ∈ buckets[i], ∀ y ∈ buckets[j],
        cmpByKeys x y keyIdx ≠ .gt → i ≤ j := fun {i j} hi hj x hx y hy hxy => by
      by_contra hnot
      have hyx := hlt hj hi (not_le.1 hnot) y hy x hx
      rw [cmpByKeys_swap, hyx] at hxy
      exact hxy rfl
    obtain ⟨i, hi, hai⟩ := hindex a ha
    obtain ⟨j, hj, hbj⟩ := hindex b hb
    obtain ⟨k, hk, hck⟩ := hindex c hc
    have hij := hle hi hj a hai b hbj hab
    have hjk := hle hj hk b hbj c hck hbc
    have hki : k ≤ i := hle hk hi c hck a hai (by rw [cmpByKeys_swap, hac]; decide)
    -- all three are in one bucket
    obtain rfl : i = j := by omega
    obtain rfl : i = k := by omega
    have hsymm : Std.Symm fun x y => sameKey keyIdx x y = true := ⟨fun x y h => (sameKey_comm keyIdx y x).trans h⟩
    have hsame : ∀ {x y}, x ∈ buckets[i] → y ∈ buckets[i] → x ≠ y → sameKey keyIdx x y = true := fun hx hy hne =>
      (hone _ (getElem_mem hi)).forall hx hy hne
    by_cases hab' : a = b
    · exact hbc (hab' ▸ hac)
    · by_cases hbc' : b = c
      · exact hab (hbc' ▸ hac)
      · exact cmpByKeys_trans_of_sameKey (hsame hai hbj hab') (hsame hbj hck hbc') hab hbc hac

/-- With no fewer buckets than rows, the buckets of rows in any order are a global sort
only where keys agree. -/
theorem keysAgree_of_globalSort {indexed : List Row} (hindexed : indexed.Perm rows) (hn : indexed.length ≤ n)
    (h : GlobalSort keyIdx n rows (placeAll keyIdx n indexed)) : KeysAgree keyIdx rows := by
  by_cases hne : indexed = []
  · subst hne
    rw [hindexed.symm.eq_nil]
    exact ⟨by simp, .nil⟩
  · exact keysAgree_of_buckets h.perm h.strict (oneKey_placeAll hne hn)

/-- The buckets are a global sort under the condition, and only under it where the sort
has a proper comparison or a bucket for each row. It holds for every number of buckets
exactly when rows that compare equal have equal key cells and the comparison has no
cycle among the rows. With no fewer buckets than rows, there is none otherwise in
whatever order the sort leaves them. -/
theorem rangePartition_globalSort_iff (rows : List Row) (keyIdx : List ℕ) :
    (∀ n, 1 ≤ n →
      (SortsInto keyIdx n rows → GlobalSort keyIdx n rows (rangePartition rows keyIdx n)) ∧
      (Proper (cmpByKeys · · keyIdx) rows ∨ rows.length ≤ n → GlobalSort keyIdx n rows (rangePartition rows keyIdx n) → SortsInto keyIdx n rows)) ∧
    ((∀ n, 1 ≤ n → GlobalSort keyIdx n rows (rangePartition rows keyIdx n)) ↔ KeysAgree keyIdx rows) ∧
    (KeysAgree keyIdx rows ↔ ∀ n, 1 ≤ n → SortsInto keyIdx n rows) ∧
    ∀ n (indexed : List Row), indexed.Perm rows → rows.length ≤ n → ¬ KeysAgree keyIdx rows →
      ¬ GlobalSort keyIdx n rows (placeAll keyIdx n indexed) := by
  have hwide : ∀ n, 1 < n → rows.length ≤ n → GlobalSort keyIdx n rows (rangePartition rows keyIdx n) → KeysAgree keyIdx rows :=
    fun n hmore hn hsort => by
      rw [rangePartition_eq, if_neg (not_le.2 hmore)] at hsort
      exact keysAgree_of_globalSort (perm_sortRows keyIdx rows) ((perm_sortRows keyIdx rows).length_eq ▸ hn) hsort
  have hall : (∀ n, 1 ≤ n → GlobalSort keyIdx n rows (rangePartition rows keyIdx n)) → KeysAgree keyIdx rows := fun h =>
    hwide (max 2 rows.length) (by omega) (le_max_right _ _) (h _ (by omega))
  refine ⟨fun n hn => ⟨fun h => h.globalSort hn, fun hexact hsort => ?_⟩, ⟨hall, fun h n hn => (h.sortsInto n).globalSort hn⟩,
    ⟨fun h n _ => h.sortsInto n, fun h => hall fun n hn => (h n hn).globalSort hn⟩,
    fun n indexed hperm hn hnot hsort => hnot (keysAgree_of_globalSort hperm (hperm.length_eq ▸ hn) hsort)⟩
  rcases Nat.lt_or_eq_of_le hn with hmore | rfl
  · rcases hexact with hproper | hlen
    · exact .inr ⟨hproper, (globalSort_rangePartition_iff hproper hmore).1 hsort⟩
    · exact (hwide n hmore hlen hsort).sortsInto n
  · exact .inl rfl

/-- At a long beside the double of its value. -/
theorem rangePartition_globalSort_one : ¬ GlobalSort [0] 2 [[.long 1], [.double (.ofInt 1)]] (placeAll [0] 2 [[.long 1], [.double (.ofInt 1)]]) := by
  refine (rangePartition_globalSort_iff [[.long 1], [.double (.ofInt 1)]] [0]).2.2.2 2 _ (.refl _) (by decide) fun hagree => ?_
  have hsame := (pairwise_cons.1 hagree.same).1 [.double (.ofInt 1)] (by simp) (by decide +kernel)
  exact absurd hsame (by decide +kernel)

/-! ## Longs beside doubles -/

/-- `2^53`. -/
def wideDouble : F64 := .ofInt 9007199254740992

/-- The order has a cycle around 2^53, and a long and the double of its value are put
apart. -/
theorem mixed_keys_disagree :
    (Value.totalCmp (.long 9007199254740993) (.double wideDouble) = .eq ∧ Value.totalCmp (.double wideDouble) (.long 9007199254740992) = .eq ∧
      Value.totalCmp (.long 9007199254740993) (.long 9007199254740992) = .gt) ∧
    ¬ GlobalSort [0] 2 [[.long 1], [.double (.ofInt 1)]] (rangePartition [[.long 1], [.double (.ofInt 1)]] [0] 2) := by
  refine ⟨⟨by decide +kernel, by decide +kernel, by decide +kernel⟩, fun h => ?_⟩
  have hbuckets : rangePartition [[.long 1], [.double (.ofInt 1)]] [0] 2 = [[[.long 1]], [[.double (.ofInt 1)]]] := by decide +kernel
  have hapart := h.together
  rw [hbuckets] at hapart
  have hne := (pairwise_cons.1 hapart).1 [[.double (.ofInt 1)]] (by simp) [.long 1] (by simp) [.double (.ofInt 1)] (by simp)
  exact hne (by decide +kernel)

end FerroDruid.Msq
