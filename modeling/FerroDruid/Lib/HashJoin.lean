import FerroDruid.Lib.HashMap
/-!
# Hash joins

Rows of one side gathered by their keys in a hash map, and looked up for each row
of the other. A row without a key matches nothing.
-/

namespace FerroDruid.Lib

open List

variable {α β γ κ : Type} [DecidableEq κ]

namespace HashMap

/-- `entry(k).or_insert(v)`. -/
def orInsert (m : HashMap κ α) (k : κ) (v : α) : HashMap κ α := if k ∈ m then m else m.insert k v

theorem lookup_orInsert (m : HashMap κ α) (k k' : κ) (v : α) :
    (m.orInsert k v).lookup k' = (m.lookup k').or (if k' = k then some v else none) := by
  unfold orInsert
  by_cases hmem : k ∈ m
  · rw [if_pos hmem]
    by_cases hk : k' = k
    · subst hk
      obtain ⟨w, hw⟩ := Option.isSome_iff_exists.1 (AList.lookup_isSome.2 hmem)
      rw [hw, Option.some_or]
    · rw [if_neg hk, Option.or_none]
  · rw [if_neg hmem]
    by_cases hk : k' = k
    · subst hk
      rw [AList.lookup_insert, AList.lookup_eq_none.2 hmem, if_pos rfl, Option.none_or]
    · rw [AList.lookup_insert_ne hk, if_neg hk, Option.or_none]

/-- The entries that are new, the first of each key. -/
def orInsertAll (m : HashMap κ α) (l : List (Sigma fun _ : κ => α)) : HashMap κ α := l.foldl (fun m e => m.orInsert e.1 e.2) m

theorem lookup_orInsertAll (m : HashMap κ α) (l : List (Sigma fun _ : κ => α)) (k : κ) :
    (m.orInsertAll l).lookup k = (m.lookup k).or (l.dlookup k) := by
  induction l generalizing m with
  | nil => exact (Option.or_none).symm
  | cons e l ih =>
    obtain ⟨k', v⟩ := e
    rw [orInsertAll, foldl_cons, ← orInsertAll, ih, lookup_orInsert, Option.or_assoc]
    congr 1
    by_cases hk : k = k'
    · subst hk
      rw [if_pos rfl, dlookup_cons_eq, Option.some_or]
    · rw [if_neg hk, dlookup_cons_ne _ _ hk, Option.none_or]

end HashMap

/-! ## The index -/

/-- `entry(key).or_default().push(row)`, when there is a key. -/
def addRow (index : HashMap κ (List β)) (key : Option κ) (row : β) : HashMap κ (List β) :=
  match key with
  | some key => index.insert key (index.getD key [] ++ [row])
  | none => index

theorem getD_addRow (index : HashMap κ (List β)) (key : Option κ) (row : β) (k : κ) :
    (addRow index key row).getD k [] = index.getD k [] ++ if key = some k then [row] else [] := by
  cases key with
  | none => rw [addRow, if_neg nofun, append_nil]
  | some key =>
    rw [addRow]
    by_cases hk : key = k
    · subst hk
      rw [HashMap.getD_insert_self, if_pos rfl]
    · rw [HashMap.getD_insert_of_ne (Ne.symm hk), if_neg (mt Option.some.inj hk), append_nil]

/-- Under a key are the rows that have it, in their order. -/
theorem getD_foldl_addRow (key : γ → Option κ) (value : γ → β) (rows : List γ) (index : HashMap κ (List β)) (k : κ) :
    (rows.foldl (fun index row => addRow index (key row) (value row)) index).getD k [] =
      index.getD k [] ++ (rows.filter (key · = some k)).map value := by
  induction rows generalizing index with
  | nil => exact (append_nil _).symm
  | cons row rows ih =>
    rw [foldl_cons, ih, getD_addRow, append_assoc]
    by_cases hk : key row = some k
    · rw [if_pos hk, filter_cons_of_pos (by simpa using hk), map_cons, singleton_append]
    · rw [if_neg hk, filter_cons_of_neg (by simpa using hk), nil_append]

/-! ## Nested loops -/

/-- Each row of the left beside each row of the right that it matches. A row that
matches nothing is kept alone, or dropped. -/
def nestedLoop (related : α → β → Bool) (keep : Bool) (left : List α) (right : List β) : List (α × Option β) :=
  left.flatMap fun l =>
    match right.filter (related l) with
    | [] => if keep then [(l, none)] else []
    | rows => rows.map fun r => (l, some r)

variable {related : α → β → Bool} {keep : Bool} {left : List α} {right : List β}

/-- The pairs are those of the two sides that match. -/
theorem mem_nestedLoop_some {l : α} {r : β} : (l, some r) ∈ nestedLoop related keep left right ↔ l ∈ left ∧ r ∈ right ∧ related l r = true := by
  rw [nestedLoop, mem_flatMap]
  have hat : ∀ a : α, ((l, some r) ∈ match right.filter (related a) with
      | [] => if keep then [(a, none)] else []
      | rows => rows.map fun r => (a, some r)) ↔ l = a ∧ r ∈ right.filter (related a) := fun a => by
    cases hrows : right.filter (related a) with
    | nil => cases keep <;> simp
    | cons _ _ =>
      simp only [mem_map, Prod.mk.injEq, Option.some.injEq]
      constructor
      · rintro ⟨r', hr', rfl, rfl⟩
        exact ⟨rfl, hr'⟩
      · rintro ⟨rfl, hr⟩
        exact ⟨r, hr, rfl, rfl⟩
  simp only [hat, mem_filter]
  constructor
  · rintro ⟨a, ha, rfl, hr⟩
    exact ⟨ha, hr⟩
  · rintro ⟨hl, hr⟩
    exact ⟨l, hl, rfl, hr⟩

end FerroDruid.Lib
