import Mathlib.Data.List.Dedup
import Mathlib.Algebra.GroupWithZero.Nat
import Mathlib.Algebra.Order.BigOperators.Group.List
/-!
# Least recently used

What is used is listed use by use. Without its repetitions, the last of which
stays, such a list has everything in the order of its last use. A cache that
holds some of it, in that order, makes room from the front.
-/

namespace FerroDruid.Lib

open List

variable {κ : Type}

/-! ## Uses -/

section

variable [DecidableEq κ]

/-- A use puts its key last. -/
theorem dedup_concat (uses : List κ) (k : κ) : (uses ++ [k]).dedup = uses.dedup.erase k ++ [k] := by
  induction uses with
  | nil => rfl
  | cons u uses ih =>
    rw [cons_append]
    by_cases hu : u ∈ uses
    · rw [dedup_cons_of_mem (mem_append_left _ hu), dedup_cons_of_mem hu, ih]
    by_cases hk : u = k
    · subst hk
      have hlast : u ∉ uses.dedup := fun h => hu (mem_dedup.1 h)
      rw [dedup_cons_of_mem (by simp), dedup_cons_of_notMem hu, ih, erase_cons_head, erase_of_not_mem hlast]
    · have hfresh : u ∉ uses ++ [k] := by simp [hu, hk]
      rw [dedup_cons_of_notMem hfresh, dedup_cons_of_notMem hu, ih, erase_cons_tail (by simpa using hk)]
      rfl

/-- What is held in the order of its last use still is when one key more is used. -/
theorem sublist_dedup_use {held uses : List κ} (h : held.Sublist uses.dedup) (k : κ) :
    (held.erase k ++ [k]).Sublist (uses ++ [k]).dedup := by
  rw [dedup_concat]
  exact (h.erase k).append (List.Sublist.refl _)

theorem sublist_dedup_skip {held uses : List κ} {k : κ} (h : held.Sublist uses.dedup) (hk : k ∉ held) :
    held.Sublist (uses ++ [k]).dedup := by
  have herase := sublist_dedup_use h k
  rw [erase_of_not_mem hk] at herase
  exact (sublist_append_left _ _).trans herase

end

/-! ## Making room -/

/-- The longest end of a list that fits. -/
def fitting (w : κ → ℕ) (room : ℕ) : List κ → List κ
  | [] => []
  | k :: ks => if ((k :: ks).map w).sum ≤ room then k :: ks else fitting w room ks

variable {w : κ → ℕ} {room : ℕ}

theorem fitting_suffix (ks : List κ) : fitting w room ks <:+ ks := by
  induction ks with
  | nil => exact suffix_refl _
  | cons k ks ih =>
    unfold fitting
    split_ifs
    · exact suffix_refl _
    · exact ih.trans (suffix_cons _ _)

theorem sum_fitting_le (ks : List κ) : ((fitting w room ks).map w).sum ≤ room := by
  induction ks with
  | nil => exact Nat.zero_le _
  | cons k ks ih =>
    unfold fitting
    split_ifs with h
    · exact h
    · exact ih

variable {ks : List κ}

/-- Without the last key that goes, it would not fit. -/
theorem lt_sum_of_dropped {front : List κ} {victim : κ} (h : ks = front ++ victim :: fitting w room ks) :
    room < ((victim :: fitting w room ks).map w).sum := by
  induction ks generalizing front with
  | nil => simp at h
  | cons k ks ih =>
    unfold fitting at h ⊢
    split_ifs at h ⊢ with hfits
    · have hlen := congrArg List.length h
      simp only [length_append, length_cons] at hlen
      omega
    · cases front with
      | nil =>
        obtain ⟨rfl, htail⟩ := List.cons.inj h
        rw [← htail]
        omega
      | cons k' front => exact ih (List.cons.inj h).2

theorem fitting_of_le (h : (ks.map w).sum ≤ room) : fitting w room ks = ks := by
  cases ks with
  | nil => rfl
  | cons k ks => exact if_pos h

/-- What a use does to a cache with a budget: a held key moves to the end, a key that
is too heavy is not held, and another one makes room from the front. -/
def useKey [DecidableEq κ] (w : κ → ℕ) (budget weight : ℕ) (k : κ) (held : List κ) : List κ :=
  if k ∈ held then held.erase k ++ [k]
  else if budget < weight then held
  else fitting w (budget - weight) held ++ [k]

theorem sublist_useKey [DecidableEq κ] {held uses : List κ} (h : held.Sublist uses.dedup) (budget weight : ℕ) (k : κ) :
    (useKey w budget weight k held).Sublist (uses ++ [k]).dedup := by
  unfold useKey
  split_ifs with hk hheavy
  · exact sublist_dedup_use h k
  · exact sublist_dedup_skip h hk
  · have hsuffix : fitting w (budget - weight) held <:+ held := fitting_suffix held
    have hfitting := hsuffix.sublist
    have huse := sublist_dedup_use (hfitting.trans h) k
    rwa [erase_of_not_mem fun hmem => hk (hfitting.subset hmem)] at huse

theorem fitting_congr {w' : κ → ℕ} (h : ∀ k ∈ ks, w k = w' k) : fitting w room ks = fitting w' room ks := by
  induction ks with
  | nil => rfl
  | cons k ks ih =>
    unfold fitting
    rw [map_congr_left h, ih fun k' hk' => h k' (mem_cons_of_mem _ hk')]

end FerroDruid.Lib
