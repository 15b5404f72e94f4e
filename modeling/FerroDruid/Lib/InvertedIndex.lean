import Mathlib.Data.Finset.Basic
import Mathlib.Data.List.Nodup
/-!
# Inverted indexes

A set of rows for every key, the keys by their positions. Rows are posted one
by one, so the set of a key is what was posted under it.
-/

namespace FerroDruid.Lib

open List

variable {ρ : Type} [DecidableEq ρ]

/-- A row goes into the set of a key. A key out of range has none. -/
def post (index : List (Finset ρ)) (posting : ℕ × ρ) : List (Finset ρ) :=
  index.modify posting.1 (insert posting.2)

@[simp] theorem length_post (index : List (Finset ρ)) (posting : ℕ × ρ) : (post index posting).length = index.length :=
  length_modify ..

theorem getElem?_post (index : List (Finset ρ)) (posting : ℕ × ρ) (k : ℕ) :
    (post index posting)[k]? = index[k]?.map fun rows => if posting.1 = k then insert posting.2 rows else rows := by
  unfold post
  rw [getElem?_modify]
  split_ifs <;> simp

variable (postings : List (ℕ × ρ))

@[simp] theorem length_foldl_post (index : List (Finset ρ)) :
    (postings.foldl post index).length = index.length := by
  induction postings generalizing index with
  | nil => rfl
  | cons posting postings ih => rw [foldl_cons, ih, length_post]

/-- A key's set after any number of postings. -/
theorem getElem?_foldl_post (index : List (Finset ρ)) {k : ℕ} {rows : Finset ρ}
    (h : index[k]? = some rows) :
    ∃ rows', (postings.foldl post index)[k]? = some rows' ∧ ∀ row, row ∈ rows' ↔ row ∈ rows ∨ (k, row) ∈ postings := by
  induction postings generalizing index rows with
  | nil => exact ⟨rows, h, by simp⟩
  | cons posting postings ih =>
    obtain ⟨key, posted⟩ := posting
    have hstep := getElem?_post index (key, posted) k
    rw [h] at hstep
    obtain ⟨rows', hrows', hmem⟩ := ih _ hstep
    refine ⟨rows', hrows', fun row => ?_⟩
    rw [hmem]
    by_cases hkey : key = k
    · subst hkey
      simp only [if_true, Finset.mem_insert, mem_cons, Prod.mk.injEq, true_and]
      tauto
    · simp [hkey, Ne.symm hkey]

/-- Posted into empty sets, a row is where it was posted. -/
theorem mem_foldl_post_empty {keys k : ℕ} (hk : k < keys) :
    ∃ rows, (postings.foldl post (List.replicate keys ∅))[k]? = some rows ∧ ∀ row, row ∈ rows ↔ (k, row) ∈ postings := by
  have hempty : (List.replicate keys (∅ : Finset ρ))[k]? = some ∅ := by simp [hk]
  obtain ⟨rows, hrows, hmem⟩ := getElem?_foldl_post postings _ hempty
  exact ⟨rows, hrows, fun row => by simp [hmem]⟩

/-! ## Keys -/

variable {κ : Type} [DecidableEq κ]

/-- A key stands at one place among different keys. -/
theorem idxOf_eq_iff {keys : List κ} (hnodup : keys.Nodup) {k : ℕ} {key key' : κ} (hk : keys[k]? = some key) (hkey' : key' ∈ keys) :
    keys.idxOf key' = k ↔ key' = key := by
  obtain ⟨hlt, rfl⟩ := List.getElem?_eq_some_iff.1 hk
  constructor
  · intro h
    subst h
    exact (getElem_idxOf hlt).symm
  · intro h
    subst h
    exact hnodup.idxOf_getElem k hlt

theorem getElem?_idxOf_of_mem {keys : List κ} {key : κ} (h : key ∈ keys) : keys[keys.idxOf key]? = some key := by
  rw [getElem?_eq_getElem (idxOf_lt_length_iff.2 h), getElem_idxOf]

end FerroDruid.Lib
