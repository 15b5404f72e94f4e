import Mathlib.Data.List.Nodup
import Mathlib.Logic.Function.Basic
/-!
# The last write wins

Fields written one after the other into a map. What the map has under a key is what was
written there last.
-/

namespace FerroDruid.Lib

open List

variable {κ β : Type} [DecidableEq κ]

def writeAll (m : κ → β) (fields : List (κ × β)) : κ → β := fields.foldl (fun m field => Function.update m field.1 field.2) m

variable {m : κ → β} {fields : List (κ × β)} {k : κ} {v : β}

theorem writeAll_append (m : κ → β) (fields fields' : List (κ × β)) : writeAll m (fields ++ fields') = writeAll (writeAll m fields) fields' :=
  foldl_append ..

theorem writeAll_of_notMem (h : k ∉ fields.map Prod.fst) : writeAll m fields k = m k := by
  induction fields generalizing m with
  | nil => rfl
  | cons field fields ih =>
    rw [map_cons, mem_cons, not_or] at h
    rw [writeAll, foldl_cons, ← writeAll, ih h.2, Function.update_of_ne h.1]

/-- Under a key that is written is one of the values written there, whatever was there before. -/
theorem writeAll_of_mem (h : k ∈ fields.map Prod.fst) : ∃ v, (k, v) ∈ fields ∧ ∀ m : κ → β, writeAll m fields k = v := by
  induction fields with
  | nil => cases h
  | cons field fields ih =>
    by_cases hlater : k ∈ fields.map Prod.fst
    · obtain ⟨v, hmem, hv⟩ := ih hlater
      exact ⟨v, mem_cons_of_mem _ hmem, fun m => hv _⟩
    · rw [map_cons, mem_cons, or_iff_left hlater] at h
      refine ⟨field.2, h ▸ mem_cons_self, fun m => ?_⟩
      rw [writeAll, foldl_cons, ← writeAll, writeAll_of_notMem hlater, h, Function.update_self]

theorem writeAll_cases (m : κ → β) (fields : List (κ × β)) (k : κ) :
    (k, writeAll m fields k) ∈ fields ∨ (k ∉ fields.map Prod.fst ∧ writeAll m fields k = m k) := by
  by_cases h : k ∈ fields.map Prod.fst
  · obtain ⟨v, hmem, hv⟩ := writeAll_of_mem h
    exact .inl (hv m ▸ hmem)
  · exact .inr ⟨h, writeAll_of_notMem h⟩

/-- A key that is always written the same value has it. -/
theorem writeAll_eq (h : (k, v) ∈ fields) (hsame : ∀ w, (k, w) ∈ fields → w = v) : writeAll m fields k = v := by
  obtain ⟨w, hmem, hw⟩ := writeAll_of_mem (mem_map_of_mem (f := Prod.fst) h)
  rw [hw m, hsame w hmem]

theorem writeAll_of_nodup (hnodup : (fields.map Prod.fst).Nodup) (h : (k, v) ∈ fields) : writeAll m fields k = v := by
  refine writeAll_eq h fun w hw => ?_
  exact congrArg Prod.snd (inj_on_of_nodup_map hnodup hw h rfl)

end FerroDruid.Lib
