import FerroDruid.Query.Join
/-!
# Joins as nested loops

The hash join returns what comparing every left row with every right row does.
-/

namespace FerroDruid.Query.Join

open Lib List

/-! ## Keys -/

/-- The text that a key stands for: a string itself, any other value its JSON. -/
def keyText (text : Json → Utf8) : Json → Utf8
  | .string s => s
  | .bool b => boolText b
  | value => text value

/-- Keys are equal as texts, and null is equal to nothing. -/
def sameKey (text : Json → Utf8) (a b : Json) : Bool := a ≠ .null ∧ b ≠ .null ∧ keyText text a = keyText text b

/-- What it is to match. -/
def related (text : Json → Utf8) (condition : JoinCondition) (l r : Row) : Bool :=
  match l.lookup condition.leftKey, r.lookup condition.rightKey with
  | some a, some b => sameKey text a b
  | _, _ => false

/-- A row whose key is not a list of values. -/
def ScalarAt (column : String) (row : Row) : Prop := ∀ items, row.lookup column ≠ some (.array items)

def keyAt (text : Json → Utf8) (column : String) (row : Row) : Option Utf8 :=
  ((row.lookup column).filter (· ≠ .null)).map (keyText text)

variable {text : Json → Utf8} {column : String} {row : Row}

theorem rowKey_of_scalar (h : ScalarAt column row) : rowKey text column row = .ok (keyAt text column row) := by
  rw [rowKey, keyAt]
  cases hvalue : row.lookup column with
  | none => rfl
  | some value =>
    cases value with
    | array items => exact absurd hvalue (h items)
    | null | bool | number | string | object => simp [joinKey, keyText]

theorem scalar_of_rowKey {key : Option Utf8} (h : rowKey text column row = .ok key) : ScalarAt column row := by
  intro items hvalue
  simp [rowKey, hvalue, joinKey] at h

theorem related_iff {condition : JoinCondition} {l r : Row} :
    related text condition l r = true ↔ ∃ k, keyAt text condition.leftKey l = some k ∧ keyAt text condition.rightKey r = some k := by
  rw [related, keyAt, keyAt]
  cases l.lookup condition.leftKey with
  | none => simp
  | some a =>
    cases r.lookup condition.rightKey with
    | none => simp
    | some b =>
      by_cases ha : a = .null
      · simp [sameKey, ha]
      · by_cases hb : b = .null
        · simp [sameKey, hb]
        · simp [sameKey, ha, hb, Option.filter, eq_comm]

/-! ## The right side -/

/-- The rows of the right side. -/
def JoinRight.relation (lookups : LookupManager) : JoinRight → List Row
  | .inline columnNames rawRows => rawRows.map (inlineRow columnNames)
  | .lookup name keyColumn valueColumn =>
    ((lookups.lookup name).getD ∅).entries.map fun e => ((∅ : Row).insert keyColumn (.string e.1)).insert valueColumn (.string e.2)
  | .rows _ rightRows => rightRows

/-- An inline table is as wide as its columns, and a lookup is registered. -/
def JoinRight.WellFormed (lookups : LookupManager) : JoinRight → Prop
  | .inline columnNames rawRows => ∀ raw ∈ rawRows, raw.length = columnNames.length
  | .lookup name _ _ => name ∈ lookups
  | .rows _ _ => True

variable {lookups : LookupManager}

theorem materialise_of_wellFormed {right : JoinRight} (h : right.WellFormed lookups) : right.materialise lookups = .ok (right.relation lookups) := by
  cases right with
  | inline columnNames rawRows => exact mapM_of_ok fun raw hraw => if_neg (not_not_intro (h raw hraw))
  | lookup name keyColumn valueColumn =>
    obtain ⟨table, htable⟩ := Option.isSome_iff_exists.1 (AList.lookup_isSome.2 h)
    have hrow : ∀ e ∈ table.entries, lookupRow keyColumn valueColumn table e.1 =
        ((∅ : Row).insert keyColumn (.string e.1)).insert valueColumn (.string e.2) := fun e he => by
      rw [lookupRow, HashMap.getD, AList.mem_lookup_iff.2 he]
      rfl
    simp only [JoinRight.materialise, JoinRight.relation, htable, Option.getD_some, AList.keys, List.keys, map_map]
    exact congrArg Except.ok (map_congr_left hrow)
  | rows _ rightRows => rfl

variable {rows : List Row}

theorem wellFormed_of_materialise {right : JoinRight} (h : right.materialise lookups = .ok rows) : right.WellFormed lookups := by
  cases right with
  | inline columnNames rawRows =>
    intro raw hraw
    obtain ⟨row, hrow⟩ := forall_of_mapM h raw hraw
    by_contra hlength
    rw [materialiseInline, if_pos hlength] at hrow
    exact nomatch hrow
  | lookup name keyColumn valueColumn =>
    by_contra hnot
    have hnone : lookups.lookup name = none := AList.lookup_eq_none.2 hnot
    simp [JoinRight.materialise, hnone] at h
  | rows _ rightRows => trivial

/-! ## The index -/

variable {rightPrefix : String}

theorem buildIndex_of_scalar {rightKey : String} (h : ∀ row ∈ rows, ScalarAt rightKey row) :
    buildIndex text rightPrefix rightKey rows =
      .ok (rows.foldl (fun index row => addRow index (keyAt text rightKey row) (prefixRow rightPrefix row)) ∅) :=
  foldlM_eq_ok (fun row hrow index => by rw [rowKey_of_scalar (h row hrow), ok_bind]) ∅

theorem scalar_of_buildIndex {rightKey : String} {index : HashMap Utf8 (List Row)}
    (h : buildIndex text rightPrefix rightKey rows = .ok index) : ∀ row ∈ rows, ScalarAt rightKey row := by
  intro row hrow
  obtain ⟨before, after, hstep⟩ := exists_of_foldlM h row hrow
  obtain ⟨key, hkey, -⟩ := bind_eq_ok.1 hstep
  exact scalar_of_rowKey hkey

/-! ## Rows -/

variable {join : JoinDataSource} {l r : Row}

/-- What a pair of the nested loop becomes. -/
def outputRow (join : JoinDataSource) : Row × Option Row → Row
  | (l, some r) => matchedRow l (prefixRow join.rightPrefix r)
  | (l, none) => unmatchedRow (join.right.columnNames.map (join.rightPrefix ++ ·)) l

/-- Probing the index finds what the loop over the right side finds. -/
theorem joinRow_eq (hscalar : ScalarAt join.condition.leftKey l) (prefixedColumns : List String) (rights : List Row) :
    joinRow text join ⟨prefixedColumns, rights.foldl (fun index row =>
        addRow index (keyAt text join.condition.rightKey row) (prefixRow join.rightPrefix row)) ∅⟩ l =
      .ok (match rights.filter (related text join.condition l) with
        | [] => if join.joinType = .left then [unmatchedRow prefixedColumns l] else []
        | rows => rows.map fun r => matchedRow l (prefixRow join.rightPrefix r)) := by
  rw [joinRow, rowKey_of_scalar hscalar, ok_bind]
  cases hkey : keyAt text join.condition.leftKey l with
  | none =>
    have hnothing : rights.filter (related text join.condition l) = [] := filter_eq_nil_iff.2 fun r _ hrelated => by
      obtain ⟨k, hk, -⟩ := related_iff.1 hrelated
      rw [hkey] at hk
      cases hk
    simp only [hnothing, Option.bind_none]
    split_ifs <;> rfl
  | some k =>
    have hfilter : rights.filter (related text join.condition l) = rights.filter (keyAt text join.condition.rightKey · = some k) :=
      filter_congr fun r _ => by
        rw [Bool.eq_iff_iff, related_iff, hkey, decide_eq_true_eq]
        constructor
        · rintro ⟨k', hk, hr⟩
          exact hk ▸ hr
        · intro hr
          exact ⟨k, rfl, hr⟩
    have hindex := getD_foldl_addRow (keyAt text join.condition.rightKey) (prefixRow join.rightPrefix) rights ∅ k
    rw [← hfilter, HashMap.getD, HashMap.getD, AList.lookup_empty, Option.getD_none, nil_append] at hindex
    rw [Option.bind_some]
    generalize (rights.foldl (fun index row =>
      addRow index (keyAt text join.condition.rightKey row) (prefixRow join.rightPrefix row)) ∅).lookup k = found at hindex
    cases hmatching : rights.filter (related text join.condition l) with
    | nil =>
      rw [hmatching, map_nil] at hindex
      cases found with
      | none => dsimp only; split_ifs <;> rfl
      | some rows =>
        subst hindex
        split_ifs <;> rfl
    | cons first rest =>
      rw [hmatching, map_cons] at hindex
      cases found with
      | none => cases hindex
      | some rows =>
        subst hindex
        exact congrArg Except.ok (by rw [← map_cons, map_map]; rfl)

/-- Exactly when the code does not refuse to join. -/
structure Joinable (join : JoinDataSource) (left : List Row) (lookups : LookupManager) : Prop where
  wellFormed : join.right.WellFormed lookups
  rightKey : join.condition.rightKey ∈ join.right.columnNames
  leftScalar : ∀ l ∈ left, ScalarAt join.condition.leftKey l
  rightScalar : ∀ r ∈ join.right.relation lookups, ScalarAt join.condition.rightKey r

/-- The hash join as a nested loop. -/
theorem executeJoin_eq {left : List Row} (h : Joinable join left lookups) : executeJoin text join left lookups =
    .ok ((nestedLoop (related text join.condition) (join.joinType = .left) left (join.right.relation lookups)).map (outputRow join)) := by
  rw [executeJoin, RightRelation.build, materialise_of_wellFormed h.wellFormed, ok_bind, if_neg (not_not_intro h.rightKey),
    buildIndex_of_scalar h.rightScalar, ok_bind, ok_bind, mapM_of_ok fun l hl => joinRow_eq (h.leftScalar l hl) _ _, ok_bind,
    nestedLoop, map_flatMap, ← flatMap_def]
  refine congrArg Except.ok (flatMap_congr fun l _ => ?_)
  cases (join.right.relation lookups).filter (related text join.condition l) with
  | nil => cases join.joinType <;> rfl
  | cons first rest =>
    rw [map_map]
    rfl

theorem joinable_of_executeJoin {left out : List Row} (h : executeJoin text join left lookups = .ok out) : Joinable join left lookups := by
  obtain ⟨right, hright, h⟩ := bind_eq_ok.1 h
  obtain ⟨out, hout, -⟩ := bind_eq_ok.1 h
  obtain ⟨rows, hrows, hbuild⟩ := bind_eq_ok.1 hright
  have hwell := wellFormed_of_materialise hrows
  have hrelation := Except.ok.inj ((materialise_of_wellFormed hwell).symm.trans hrows)
  split_ifs at hbuild with hkey
  obtain ⟨index, hindex, -⟩ := bind_eq_ok.1 hbuild
  refine ⟨hwell, hkey, fun l hl => ?_, hrelation ▸ scalar_of_buildIndex hindex⟩
  obtain ⟨joined, hjoined⟩ := forall_of_mapM hout l hl
  obtain ⟨key, hkey, -⟩ := bind_eq_ok.1 hjoined
  exact scalar_of_rowKey hkey

/-! ## What the rows hold -/

theorem append_left_injective (rightPrefix : String) : Function.Injective (rightPrefix ++ ·) := fun _ _ h => (String.append_right_inj rightPrefix).1 h

theorem lookup_prefixRow (rightPrefix : String) (row : Row) (name : String) :
    (prefixRow rightPrefix row).lookup (rightPrefix ++ name) = row.lookup name := by
  have hkeys : (row.entries.map fun e => (rightPrefix ++ e.1, e.2)).map (·.1) = row.keys.map (rightPrefix ++ ·) := by
    rw [map_map, AList.keys, List.keys, map_map]
    rfl
  cases hvalue : row.lookup name with
  | none =>
    rw [prefixRow, HashMap.lookup_insertAll_of_notMem, AList.lookup_empty]
    rw [hkeys, mem_map_of_injective (append_left_injective rightPrefix)]
    exact fun hmem => AList.lookup_eq_none.1 hvalue (AList.mem_keys.2 hmem)
  | some value =>
    refine HashMap.lookup_insertAll ?_ ?_ ∅
    · rw [hkeys]
      exact row.keys_nodup.map (append_left_injective rightPrefix)
    · exact mem_map.2 ⟨⟨name, value⟩, AList.mem_lookup_iff.1 hvalue, rfl⟩

theorem lookup_prefixRow_of_ne {c : String} (h : ∀ name, c ≠ rightPrefix ++ name) (row : Row) : (prefixRow rightPrefix row).lookup c = none := by
  rw [prefixRow, HashMap.lookup_insertAll_of_notMem, AList.lookup_empty]
  simp only [map_map, mem_map, not_exists, not_and]
  exact fun e _ he => h e.1 he.symm

theorem dlookup_nulls (columns : List String) (c : String) :
    (columns.map fun col => (⟨col, .null⟩ : Sigma fun _ : String => Json)).dlookup c = if c ∈ columns then some .null else none := by
  induction columns with
  | nil => rfl
  | cons col columns ih =>
    rw [map_cons]
    by_cases hc : c = col
    · subst hc
      rw [dlookup_cons_eq, if_pos mem_cons_self]
    · rw [dlookup_cons_ne _ _ hc, ih]
      simp [hc]

theorem mem_joinOutputColumns {leftColumns : List String} {c : String} :
    c ∈ joinOutputColumns join leftColumns ↔ c ∈ leftColumns ∨ ∃ name ∈ join.right.columnNames, c = join.rightPrefix ++ name := by
  have hfold : ∀ names cols : List String, c ∈ names.foldl (fun cols c =>
    if join.rightPrefix ++ c ∈ cols then cols else cols ++ [join.rightPrefix ++ c]) cols ↔
      c ∈ cols ∨ ∃ name ∈ names, c = join.rightPrefix ++ name := by
    intro names
    induction names with
    | nil => simp
    | cons name names ih =>
      intro cols
      rw [foldl_cons, ih]
      split_ifs with hmem
      · constructor
        · rintro (h | ⟨name', hname', rfl⟩)
          · exact .inl h
          · exact .inr ⟨name', mem_cons_of_mem _ hname', rfl⟩
        · rintro (h | ⟨name', hname', rfl⟩)
          · exact .inl h
          · rcases mem_cons.1 hname' with rfl | hname'
            · exact .inl hmem
            · exact .inr ⟨name', hname', rfl⟩
      · simp [or_assoc]
  exact hfold join.right.columnNames leftColumns

/-- The rows of a subquery need not have all of its columns. -/
def Covered (join : JoinDataSource) (l : Row) : Option Row → Prop
  | some r =>
    match join.right with
    | .rows columnNames _ => ∀ name ∈ columnNames, name ∈ r ∨ join.rightPrefix ++ name ∈ l
    | _ => True
  | none => True

/-- A row made of a left row and a right row, or of a left row alone. -/
structure JoinsRow (join : JoinDataSource) (pair : Row × Option Row) (row : Row) : Prop where
  /-- Nothing of the left is overwritten. -/
  left : ∀ c v, pair.1.lookup c = some v → row.lookup c = some v
  /-- The right row's values, or nulls for a left row without a match. -/
  right : ∀ name, join.rightPrefix ++ name ∉ pair.1 →
    match pair.2 with
    | some r => name ∈ r → row.lookup (join.rightPrefix ++ name) = r.lookup name
    | none => name ∈ join.right.columnNames → row.lookup (join.rightPrefix ++ name) = some .null
  others : ∀ c, c ∉ pair.1 → (∀ name, c = join.rightPrefix ++ name → name ∉ join.right.columnNames ∧ ∀ r ∈ pair.2, name ∉ r) → row.lookup c = none
  columns : Covered join pair.1 pair.2 → ∀ leftColumns, (∀ c ∈ leftColumns, c ∈ pair.1) → ∀ c ∈ joinOutputColumns join leftColumns, c ∈ row

/-- Inline tables and lookups have all their columns. -/
theorem mem_of_relation {r : Row} (hr : r ∈ join.right.relation lookups) (hwell : join.right.WellFormed lookups) (hcovered : Covered join l (some r)) :
    ∀ name ∈ join.right.columnNames, name ∈ r ∨ join.rightPrefix ++ name ∈ l := by
  unfold Covered at hcovered
  cases hright : join.right with
  | inline columnNames rawRows =>
    rw [hright] at hr hwell
    obtain ⟨raw, hraw, rfl⟩ := mem_map.1 hr
    intro name hname
    refine .inl (AList.mem_keys.2 (HashMap.mem_keys_insertAll.2 (.inr ?_)))
    rwa [map_fst_zip (hwell raw hraw).ge]
  | lookup lookup keyColumn valueColumn =>
    rw [hright] at hr
    obtain ⟨e, -, rfl⟩ := mem_map.1 hr
    intro name hname
    simp only [JoinRight.columnNames, mem_cons, not_mem_nil, or_false] at hname
    refine .inl ?_
    rw [AList.mem_insert, AList.mem_insert]
    exact hname.symm.imp_right .inl
  | rows columnNames rightRows =>
    rw [hright] at hcovered
    exact hcovered

/-- What is put beside the left row. -/
def added (join : JoinDataSource) (right : Option Row) (c : String) : Option Json :=
  match right with
  | some r => (prefixRow join.rightPrefix r).lookup c
  | none => if c ∈ join.right.columnNames.map (join.rightPrefix ++ ·) then some .null else none

theorem lookup_outputRow (pair : Row × Option Row) (c : String) :
    (outputRow join pair).lookup c = (pair.1.lookup c).or (added join pair.2 c) := by
  obtain ⟨l, right⟩ := pair
  cases right with
  | none => rw [outputRow, unmatchedRow, HashMap.lookup_orInsertAll, dlookup_nulls, added]
  | some r => exact HashMap.lookup_orInsertAll l (prefixRow join.rightPrefix r).entries c

theorem added_prefixed (right : Option Row) (name : String) : added join right (join.rightPrefix ++ name) =
    match right with
    | some r => r.lookup name
    | none => if name ∈ join.right.columnNames then some .null else none := by
  cases right with
  | none =>
    simp only [added, mem_map_of_injective (append_left_injective join.rightPrefix)]
  | some r => exact lookup_prefixRow join.rightPrefix r name

theorem outputRow_joins {pair : Row × Option Row} (hwell : join.right.WellFormed lookups) (hpair : ∀ r ∈ pair.2, r ∈ join.right.relation lookups) :
    JoinsRow join pair (outputRow join pair) where
  left c v hv := by rw [lookup_outputRow, hv, Option.some_or]
  right name hname := by
    have hadded : (outputRow join pair).lookup (join.rightPrefix ++ name) = added join pair.2 (join.rightPrefix ++ name) := by
      rw [lookup_outputRow, AList.lookup_eq_none.2 hname, Option.none_or]
    rw [hadded, added_prefixed]
    obtain ⟨l, right⟩ := pair
    cases right with
    | some r => exact fun _ => rfl
    | none => exact fun hmem => if_pos hmem
  others c hc hname := by
    rw [lookup_outputRow, AList.lookup_eq_none.2 hc, Option.none_or]
    obtain ⟨l, right⟩ := pair
    cases right with
    | none =>
      refine if_neg fun hmem => ?_
      obtain ⟨name, hcolumn, rfl⟩ := mem_map.1 hmem
      exact (hname name rfl).1 hcolumn
    | some r =>
      by_cases hprefixed : ∃ name, c = join.rightPrefix ++ name
      · obtain ⟨name, rfl⟩ := hprefixed
        exact (lookup_prefixRow join.rightPrefix r name).trans (AList.lookup_eq_none.2 ((hname name rfl).2 r rfl))
      · exact lookup_prefixRow_of_ne (not_exists.1 hprefixed) r
  columns hcovered leftColumns hleft c hc := by
    rw [← AList.lookup_isSome, lookup_outputRow, Option.isSome_or, Bool.or_eq_true, AList.lookup_isSome]
    rcases mem_joinOutputColumns.1 hc with hc | ⟨name, hname, rfl⟩
    · exact .inl (hleft c hc)
    · rw [added_prefixed]
      obtain ⟨l, right⟩ := pair
      cases right with
      | none => exact .inr (by simp [hname])
      | some r =>
        rcases mem_of_relation (hpair r rfl) hwell hcovered name hname with hmem | hmem
        · exact .inr (AList.lookup_isSome.2 hmem)
        · exact .inl hmem

/-- A join succeeds exactly if its right side is well formed, has the right key as a
column, and no key on either side is a list. The rows are then, in their order, those of
the nested loop. -/
theorem executeJoin_nestedLoop (text : Json → Utf8) (join : JoinDataSource) (left : List Row) (lookups : LookupManager) :
    ((∃ out, executeJoin text join left lookups = .ok out) ↔ Joinable join left lookups) ∧
      ∀ out, executeJoin text join left lookups = .ok out →
        List.Forall₂ (JoinsRow join) (nestedLoop (related text join.condition) (join.joinType = .left) left (join.right.relation lookups)) out := by
  refine ⟨⟨fun ⟨out, h⟩ => joinable_of_executeJoin h, fun h => ⟨_, executeJoin_eq h⟩⟩, fun out h => ?_⟩
  have hjoinable := joinable_of_executeJoin h
  rw [executeJoin_eq hjoinable] at h
  cases h
  refine forall₂_map_right_iff.2 (forall₂_same.2 fun pair hpair => outputRow_joins hjoinable.wellFormed fun r hr => ?_)
  obtain ⟨l, right⟩ := pair
  cases hr
  exact (mem_nestedLoop_some.1 hpair).2.1

def ten : Utf8 := ⟨ascii "10", by decide⟩

/-- A subquery of two columns, whose only row has the first. -/
def tenJoin (joinType : JoinType) : JoinDataSource :=
  ⟨.rows ["k", "v"] [(∅ : Row).insert "k" (.string ten)], "j.", ⟨"k", "k"⟩, joinType⟩

/-- At the number 10 and the text of it. -/
theorem executeJoin_nestedLoop_ten :
    List.Forall₂ (JoinsRow (tenJoin .left))
      (nestedLoop (related (fun _ => ten) ⟨"k", "k"⟩) true [(∅ : Row).insert "k" (.ofI64 10), ∅] [(∅ : Row).insert "k" (.string ten)])
      [((∅ : Row).insert "k" (.ofI64 10)).insert "j.k" (.string ten), ((∅ : Row).insert "j.k" .null).insert "j.v" .null] :=
  (executeJoin_nestedLoop (fun _ => ten) (tenJoin .left) [(∅ : Row).insert "k" (.ofI64 10), ∅] ∅).2 _ (by decide +kernel)

/-- A list of values is no key. A right row without one of the right columns leaves
the joined row without it. -/
theorem list_key_refused :
    (∀ out, executeJoin (fun _ => ten) (tenJoin .inner) [(∅ : Row).insert "k" (.array [.string ten]), (∅ : Row).insert "k" (.string ten)] ∅ ≠ .ok out) ∧
      executeJoin (fun _ => ten) (tenJoin .inner) [(∅ : Row).insert "k" (.string ten)] ∅ =
        .ok [((∅ : Row).insert "k" (.string ten)).insert "j.k" (.string ten)] ∧
      "j.v" ∈ joinOutputColumns (tenJoin .inner) ["k"] ∧ "j.v" ∉ ((∅ : Row).insert "k" (.string ten)).insert "j.k" (.string ten) := by
  refine ⟨fun out h => ?_, by decide +kernel, by decide, by decide⟩
  have hscalar := (joinable_of_executeJoin h).leftScalar _ mem_cons_self
  exact hscalar [.string ten] (by decide)

end FerroDruid.Query.Join
